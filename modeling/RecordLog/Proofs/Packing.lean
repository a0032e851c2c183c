import Mathlib
import RecordLog.Proofs.Outlines
import RecordLog.Proofs.Passages
import RecordLog.Proofs.Refinement

/-!
# Segments are packed greedily

A record is put into the live segment as long as there is room for it there, and only then is the
segment sealed. Which segments come of it is said by a fold over the sizes of the records, which
knows nothing of a log.
-/

namespace RecordLog

open Record

/-- Sizes by segments, those of the last one apart. -/
structure Packing where
  full : List (List Nat) := []
  last : List Nat := []
  deriving Repr, DecidableEq

/-- Where a segment is, how long it is, and how many records it has. -/
structure Slot where
  start : Nat
  size : Nat
  records : Nat
  deriving Repr, DecidableEq

namespace Packing

/-- A new segment is begun if and only if there is something in the last one and the next record
would take that beyond the capacity. -/
def put (capacity : Nat) (p : Packing) (n : Nat) : Packing :=
  if p.last ≠ [] ∧ capacity < p.last.sum + n then ⟨p.full ++ [p.last], [n]⟩
  else ⟨p.full, p.last ++ [n]⟩

def greedy (capacity : Nat) (sizes : List Nat) : Packing := sizes.foldl (put capacity) {}

def row : (start : Nat) → List (List Nat) → List Slot
  | _, [] => []
  | start, ns :: rest => ⟨start, ns.sum, ns.length⟩ :: row (start + ns.sum) rest

def slots (p : Packing) : List Slot := row 0 (p.full ++ [p.last])

/-- A record beyond the capacity is alone in its segment, and one of no room at all is as well. -/
example : (greedy 4 [3, 1, 9, 1]).slots = [⟨0, 4, 2⟩, ⟨4, 9, 1⟩, ⟨13, 1, 1⟩] ∧
    (greedy 0 [1, 1]).slots = [⟨0, 1, 1⟩, ⟨1, 1, 1⟩] := by decide

theorem row_append (start : Nat) (xs : List (List Nat)) (ns : List Nat) :
    row start (xs ++ [ns]) = row start xs ++ [⟨start + xs.flatten.sum, ns.sum, ns.length⟩] := by
  induction xs generalizing start with
  | nil => simp [row]
  | cons x xs ih => simp [row, ih, Nat.add_assoc]

end Packing

def Chunk.slot (chunk : Chunk) : Slot := ⟨chunk.start, chunk.size, chunk.records⟩

def BufferState.slot (b : BufferState) : Slot := ⟨b.start, b.pos, b.records⟩

/-- Nothing is sealed on purpose, and a record that is asked for is appended. -/
def Action.Packs : Action → Except Stop (Option Nat) → Prop
  | .append _ _, answer => answer.isOk = true
  | .sealLive, _ => False
  | _, _ => True

instance (answer : Except Stop (Option Nat)) : (a : Action) → Decidable (a.Packs answer)
  | .append _ _ => inferInstanceAs (Decidable (answer.isOk = true))
  | .sealLive => inferInstanceAs (Decidable False)
  | .checkpoint | .observeKey _ _ | .putCheckpoint _ _ => inferInstanceAs (Decidable True)

/-- The chunks in an index and the live segment are those of a packing. -/
structure Packing.Tells (capacity : Nat) (p : Packing) (c : Catalog) (b : BufferState) : Prop where
  full : c.chunks.values.map Chunk.slot = row 0 p.full
  start : b.start = p.full.flatten.sum
  pos : b.pos = p.last.sum
  records : b.records = p.last.length
  capacity : b.capacity = capacity

namespace Packing.Tells

variable {capacity n : Nat} {p : Packing} {c c' : Catalog} {b b' : BufferState}

theorem slots_eq (h : p.Tells capacity c b) :
    c.chunks.values.map Chunk.slot ++ [b.slot] = p.slots := by
  rw [slots, row_append, h.full, Nat.zero_add, ← h.start, ← h.pos, ← h.records, BufferState.slot]

theorem fits_iff (h : p.Tells capacity c b) (hd : c.Describes b) :
    b.fits n = true ↔ ¬ (p.last ≠ [] ∧ capacity < p.last.sum + n) := by
  have hempty : p.last = [] ↔ b.pos = 0 := by
    rw [← hd.sized.empty, h.records, List.length_eq_zero_iff]
  rw [BufferState.fits, h.capacity, ← h.pos, Bool.or_eq_true, beq_iff_eq, decide_eq_true_iff,
    ne_eq, hempty]
  omega

theorem put (h : p.Tells capacity c b) (hd : c.Describes b)
    (hroom : Room capacity b c n b' c') : (p.put capacity n).Tells capacity c' (b'.add n) := by
  have hiff := h.fits_iff (n := n) hd
  cases hroom with
  | fits hf =>
    rw [Packing.put, if_neg (hiff.1 hf)]
    exact { h with
      pos := by simp [BufferState.add, h.pos]
      records := by simp [BufferState.add, h.records] }
  | @sealed salt diskSize hf =>
    have hnew : p.last ≠ [] ∧ capacity < p.last.sum + n := by
      by_contra hnot
      rw [hiff.2 hnot] at hf
      cases hf
    rw [Packing.put, if_pos hnew]
    exact {
      full := by
        rw [PositionMap.values, hd.entries_seal, List.map_append, List.map_append,
          ← PositionMap.values, row_append, Nat.zero_add, ← h.start, ← h.pos, ← h.records, h.full]
        rfl
      start := by simp [BufferState.add, BufferState.fresh, BufferState.stop, h.start, h.pos]
      pos := by simp [BufferState.add, BufferState.fresh]
      records := rfl
      capacity := rfl }

/-- What an operation adds to a log it adds to the packing. -/
theorem posting {a : Action} {answer : Except Stop (Option Nat)} {pieces : List Piece}
    (h : p.Tells capacity c b) (hd : c.Describes b)
    (he : Posting capacity b c a answer b' c' pieces) (ha : a.Packs answer) :
    (((a.appended answer).map (size ·.1)).foldl (Packing.put capacity) p).Tells capacity c' b' := by
  cases he with
  | appended hroom => exact h.put hd hroom
  | broken _ _ => cases ha
  | sealed _ => exact ha.elim
  | kept => exact { h with }
  | same hsame _ =>
    rw [hsame.2]
    exact { h with }

end Packing.Tells

variable {cfg : Config} {q : Place} {c : Catalog} {p : Packing} {s : Writer × World}
  {w w' : World} {op : Op Writer} {writer : Writer}

theorem Writer.Books.take (h : Books q c s.1 s.2) (step : Step) :
    ∃ c' pieces, Posting s.1.config.capacity s.1.buffer.toBufferState c step.action
        (step.take s).1 (step.take s).2.1.buffer.toBufferState c' pieces ∧
      Books q c' (step.take s).2.1 (step.take s).2.2 ∧
      (step.take s).2.1.config = s.1.config := by
  obtain ⟨c', pieces, hposting, hproceeds, -⟩ :=
    (h.under (k := step.circumstances)).attempted World.returns_under step.action
  exact ⟨c', pieces, hposting, hproceeds.books.under (k := {}), hproceeds.config⟩

theorem Writer.Books.packs_run (h : Books q c s.1 s.2) {steps : List Step}
    (hsteps : List.Forall₂ (fun step answer => step.action.Packs answer) steps (answers steps s))
    (hp : p.Tells s.1.config.capacity c s.1.buffer.toBufferState) :
    ∃ c', Books q c' (run steps s).2.1 (run steps s).2.2 ∧
      (((run steps s).1.map (size ·.1)).foldl (Packing.put s.1.config.capacity) p).Tells
        s.1.config.capacity c' (run steps s).2.1.buffer.toBufferState := by
  induction steps generalizing c p s with
  | nil => exact ⟨c, h, hp⟩
  | cons step steps ih =>
    obtain ⟨hstep, hrest⟩ := List.forall₂_cons.1 hsteps
    obtain ⟨c₁, pieces, hposting, hbooks, hconfig⟩ := h.take step
    have hnext := hp.posting h.describes hposting hstep
    rw [← hconfig] at hnext
    obtain ⟨c₂, hbooks₂, htells⟩ := ih hbooks hrest hnext
    refine ⟨c₂, hbooks₂, ?_⟩
    rw [hconfig] at htells
    simpa only [run, List.map_append, List.foldl_append] using htells

/-- The chunks of a new log and its live segment are the greedy packing of the records that were
appended, as long as every append succeeds and nothing is sealed on purpose. Whatever the transforms
are, this is what the index has; if they can be undone, it is what a reader is told. -/
theorem Founding.packs_greedily (hf : Founding cfg w op) (hs : w.disk.Sound) (hr : w.Returns)
    (hop : op w = .ok writer w') {steps : List Step} {appended : List (Bytes × Nat)}
    (hrun : run steps (writer, w'.under writer.store {}) = (appended, s))
    (hsteps : List.Forall₂ (fun step answer => step.action.Packs answer) steps
      (answers steps (writer, w'.under writer.store {}))) :
    ∃ c, (∃ t, s.2.tables s.1.store = some t ∧ t.Represents c) ∧
      c.chunks.values.map Chunk.slot ++ [s.1.buffer.slot] =
        (Packing.greedy cfg.capacity (appended.map (size ·.1))).slots ∧
      (cfg.compressor.Lawful → cfg.cipher.Lawful →
        Store.HasRoom s.1.store s.1.buffer.stop s.2 →
        ∃ w'', s.1.reader.chunks s.2 = .ok c.chunks.values w'') := by
  obtain ⟨q, hbooks, salt, hfresh⟩ := hf.books hs hr hop
  obtain ⟨q', salt', rfl, -, -, -, hcar⟩ := hf.opened hs hr hop
  obtain ⟨-, -, hwriter⟩ := hbooks.writer writer rfl
  have hempty : Packing.Tells writer.config.capacity {}
      { buffer := some writer.buffer.toBufferState } writer.buffer.toBufferState :=
    hfresh ▸ ⟨rfl, rfl, rfl, rfl, rfl⟩
  obtain ⟨c, hend, htells⟩ :=
    Writer.Books.packs_run (s := (writer, w'.under writer.store {})) hwriter hsteps hempty
  rw [hrun] at hend htells
  obtain ⟨st, hst, hclosed, hpoisoned, hkeeps⟩ := hend.index
  refine ⟨c, Store.tables_of_keeps hst hkeeps, htells.slots_eq, fun hz hc hroom => ?_⟩
  have hset : Settled q' _ _ (writer, w'.under writer.store {}) := .of_carries hcar hz hc
  obtain ⟨l, c', hfollows, -, -⟩ := hset.run steps
  rw [hrun] at hfollows
  have hcarries := hfollows.settled.carries
  obtain rfl : q = q' := Except.ok.inj (hend.home.symm.trans hcarries.home)
  have hlist := (hcarries.listable hroom).of_keeps hcarries.index hend.index
  obtain ⟨w'', hchunks, -⟩ :=
    Reader.chunks_eq (r := s.1.reader) hend.index.offers hfollows.settled.calm hlist
  exact ⟨w'', hchunks⟩

/-- Two records fill a segment to the last byte, one goes beyond any, and a checkpoint that fails is
in between. -/
theorem packs_greedily_oversized :
    ∃ steps writer w s appended chunks w', Writer.resume .plain 0 .blank = .ok writer w ∧
      run steps (writer, w.under writer.store {}) = (appended, s) ∧
      appended.map (·.1) = [[1, 2], [], [1, 2, 3, 4, 5, 6, 7, 8], []] ∧
      s.1.reader.chunks s.2 = .ok chunks w' ∧
      chunks.map Chunk.slot = [⟨0, 4, 2⟩, ⟨4, 9, 1⟩] ∧ s.1.buffer.slot = ⟨13, 1, 1⟩ := by
  let steps : List Step :=
    [⟨.append [1, 2] (by decide), {}⟩, ⟨.append [] (by decide), {}⟩,
      ⟨.checkpoint, { refuses := true }⟩, ⟨.append [1, 2, 3, 4, 5, 6, 7, 8] (by decide), {}⟩,
      ⟨.append [] (by decide), {}⟩]
  obtain ⟨writer, w, hop, hsteps, happended, hsizes, hmemory⟩ :
      ∃ writer w, Writer.resume .plain 0 .blank = .ok writer w ∧
      List.Forall₂ (fun step answer => step.action.Packs answer) steps
        (answers steps (writer, w.under writer.store {})) ∧
      (run steps (writer, w.under writer.store {})).1.map (·.1) =
        [[1, 2], [], [1, 2, 3, 4, 5, 6, 7, 8], []] ∧
      (run steps (writer, w.under writer.store {})).1.map (size ·.1) = [3, 1, 9, 1] ∧
      (run steps (writer, w.under writer.store {})).2.2.stores[
        (run steps (writer, w.under writer.store {})).2.1.store]?.any
          (·.medium.inFile) = false :=
    ⟨_, _, rfl, by decide +kernel, by decide +kernel, by decide +kernel, by decide +kernel⟩
  obtain ⟨c, -, hslots, hlists⟩ := Founding.blank.packs_greedily World.sound_blank
    (World.Calm.returns rfl) hop Prod.mk.eta.symm hsteps
  obtain ⟨w', hchunks⟩ := hlists Compressor.lawful_identity Cipher.lawful_identity
    (.of_memory hmemory)
  rw [hsizes, show (Packing.greedy Config.plain.capacity [3, 1, 9, 1]).slots =
    [⟨0, 4, 2⟩, ⟨4, 9, 1⟩] ++ [⟨13, 1, 1⟩] from rfl] at hslots
  obtain ⟨hfull, hlast⟩ := List.append_inj' hslots rfl
  exact ⟨steps, writer, w, _, _, _, w', hop, Prod.mk.eta.symm, happended, hchunks, hfull,
    List.singleton_injective hlast⟩

end RecordLog
