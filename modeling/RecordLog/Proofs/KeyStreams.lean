import Mathlib
import RecordLog.Proofs.Passages
import RecordLog.Proofs.Recovery

/-!
# Bytes of a key stream

A live segment is encoded at the offsets where its bytes come to lie, and an offset is encoded again
only after the log was cut back to it. `GivesUp` lists the turns that cut a log: an operation that
reports an error may have encoded some of its record, and a writer that goes takes with it what is
not durable.
-/

namespace RecordLog

open Record

namespace Piece

def start (p : Piece) : Nat := p.id.start + p.offset

def stop (p : Piece) : Nat := p.start + p.data.length

def byte? (p : Piece) (x : Nat) : Option UInt8 :=
  if p.offset ≤ x then p.data[x - p.offset]? else none

/-- Pieces under one key stream have the same bytes where they overlap. -/
def OneByteEach (ps : List Piece) : Prop :=
  ∀ p ∈ ps, ∀ p' ∈ ps, p.id = p'.id →
    ∀ x v v', p.byte? x = some v → p'.byte? x = some v' → v = v'

theorem bounds_of_byte? {p : Piece} {x : Nat} {v : UInt8} (h : p.byte? x = some v) :
    p.start ≤ p.id.start + x ∧ p.id.start + x < p.stop := by
  unfold byte? at h
  split at h
  · have hlt := (List.getElem?_eq_some_iff.1 h).1
    unfold stop start
    omega
  · cases h

end Piece

def Event.written? : Event → Option Piece
  | .wrote id offset data => some ⟨id, offset, data⟩
  | _ => none

namespace World

/-- All that reached live files so far, in order. -/
def written (w : World) : List Piece := w.events.toList.filterMap Event.written?

def saltsUsed (w : World) : List UInt64 := (List.range w.saltsDrawn).map w.salts

end World

variable {cfg : Config} {q : Place} {c c' : Catalog} {n n' n'' : Moment} {capacity : Nat}
  {b b' : BufferState} {a : Action} {answer : Except Stop (Option Nat)} {data : Bytes}
  {pieces : List Piece} {p p' : Piece} {i j pos : Nat}

namespace BufferState

theorem bounds_of_mem_pieces (hp : p ∈ b.pieces data) :
    b.stop ≤ p.start ∧ p.stop ≤ (b.add (size data)).stop := by
  have hsize : size data = (Varint.encode data.length).length + data.length := by
    rw [Varint.length_encode, size]
  simp only [pieces, List.mem_cons, List.not_mem_nil, or_false] at hp
  rcases hp with rfl | rfl
  all_goals
    simp only [Piece.stop, Piece.start, stop, id, add, hsize]
    omega

theorem pairwise_pieces (b : BufferState) (data : Bytes) :
    (b.pieces data).Pairwise fun p p' => p.stop ≤ p'.start := by
  simp [pieces, Piece.stop, Piece.start, Nat.add_assoc]

end BufferState

namespace Posting

theorem pairwise (he : Posting capacity b c a answer b' c' pieces) :
    pieces.Pairwise fun p p' => p.stop ≤ p'.start := by
  cases he with
  | appended _ => exact BufferState.pairwise_pieces _ _
  | broken _ hpre => exact (BufferState.pairwise_pieces _ _).sublist hpre.sublist
  | sealed _ => exact .nil
  | kept => exact .nil
  | same _ _ => exact .nil

/-- What an operation encodes lies behind the log as it was. It belongs to the log from then on
unless the operation reports an error. -/
theorem bounds_of_mem (he : Posting capacity b c a answer b' c' pieces) (hp : p ∈ pieces) :
    b.stop ≤ p.start ∧
      (p.stop ≤ b'.stop ∨ b'.stop = b.stop ∧ ∃ e, answer = .error (.error e)) := by
  cases he with
  | appended hroom =>
    obtain ⟨hstart, hstop⟩ := BufferState.bounds_of_mem_pieces hp
    exact ⟨hroom.stop_eq ▸ hstart, .inl hstop⟩
  | broken hroom hpre =>
    obtain ⟨hstart, -⟩ := BufferState.bounds_of_mem_pieces (hpre.subset hp)
    exact ⟨hroom.stop_eq ▸ hstart, .inr ⟨hroom.stop_eq, _, rfl⟩⟩
  | sealed _ => cases hp
  | kept => cases hp
  | same _ _ => cases hp

end Posting

/-- Where a log ends, and without a writer, where another one would go on. -/
def Moment.reach (n : Moment) : Nat :=
  (n.writer.map (·.buffer.stop)).getD n.ledger.durable

/-- A turn that leaves a log ending at a position at the latest: an operation that reports an error,
or the writer goes. -/
structure GivesUp (cfg : Config) (pos : Nat) (n n' : Moment) : Prop where
  turn : Turn cfg n n'
  reach : n'.reach ≤ pos
  cause : ∃ writer, n.writer = some writer ∧
    (n'.writer = none ∨ ∃ (step : Step) (e : Error),
      (step.take (writer, n.world)).1 = .error (.error e) ∧
      n'.world = (step.take (writer, n.world)).2.2)

namespace Moment

/-- What one turn adds to all that was encoded: it lies behind the log, and it and the log are kept
unless the turn gives them up. -/
structure Encodes (cfg : Config) (n n' : Moment) (more : List Piece) : Prop where
  pieces : n'.world.pieces = n.world.pieces ++ more
  pairwise : more.Pairwise fun p p' => p.stop ≤ p'.start
  behind : ∀ p ∈ more, n.reach ≤ p.start
  log : ∀ pos, pos < n.reach → pos < n'.reach ∨ GivesUp cfg pos n n'
  record : ∀ p ∈ more, ∀ pos, p.start ≤ pos → pos < p.stop →
    pos < n'.reach ∨ GivesUp cfg pos n n'

theorem Encodes.ofNone (hpieces : n'.world.pieces = n.world.pieces)
    (hlog : ∀ pos, pos < n.reach → pos < n'.reach ∨ GivesUp cfg pos n n') :
    Encodes cfg n n' [] :=
  ⟨by rw [hpieces, List.append_nil], .nil, by simp, hlog, by simp⟩

end Moment

theorem Turn.encodes (h : n.Books cfg q c) (ht : Turn cfg n n') :
    ∃ more, n.Encodes cfg n' more := by
  obtain ⟨c', -, hp⟩ := ht.books h
  cases hp with
  | @act writer id w g step c' pieces hposting hpieces =>
    refine ⟨pieces, hpieces, hposting.pairwise, fun p hp => (hposting.bounds_of_mem hp).1,
      fun pos hpos => .inl (hpos.trans_le hposting.stop_le), fun p hp pos hstart hstop => ?_⟩
    obtain ⟨hbehind, hin | ⟨hsame, e, he⟩⟩ := hposting.bounds_of_mem hp
    · exact .inl (hstop.trans_le hin)
    · refine .inr ⟨ht, ?_, writer, rfl, .inr ⟨step, e, he, rfl⟩⟩
      change BufferState.stop _ ≤ pos
      rw [hsame]
      exact hbehind.trans hstart
  | leave hn hg hpieces =>
    refine ⟨[], .ofNone hpieces fun pos hpos => ?_⟩
    have hreach : n'.reach = n.ledger.durable := by
      rw [Moment.reach, hn, ← hg]
      rfl
    cases hw : n.writer with
    | none =>
      refine .inl ?_
      rw [hreach]
      rw [Moment.reach, hw] at hpos
      exact hpos
    | some writer =>
      by_cases hle : n'.reach ≤ pos
      · exact .inr ⟨ht, hle, writer, hw, .inl hn⟩
      · exact .inl (Nat.lt_of_not_le hle)
  | enter hn hn' hb hg hpieces =>
    refine ⟨[], .ofNone hpieces fun pos hpos => .inl ?_⟩
    obtain ⟨s, hs, hdurable, -⟩ := h.durable
    rw [hb] at hs
    obtain rfl := Option.some.inj hs
    rw [Moment.reach, hn] at hpos
    rw [Moment.reach, hn']
    exact hpos.trans_eq hdurable

namespace Life

theorem turns_on (h : Life cfg n.writer n.index n.world n.ledger)
    (hturns : Relation.ReflTransGen (Turn cfg) n n') :
    Life cfg n'.writer n'.index n'.world n'.ledger := by
  induction hturns with
  | refl => exact h
  | tail _ ht ih => exact ih.turn ht

theorem prefix_pieces (h : Life cfg n.writer n.index n.world n.ledger)
    (hturns : Relation.ReflTransGen (Turn cfg) n n') : n.world.pieces <+: n'.world.pieces := by
  induction hturns with
  | refl => exact List.prefix_refl _
  | tail hturns ht ih =>
    obtain ⟨q, c, hbooks⟩ := (h.turns_on hturns).books
    obtain ⟨more, hmore⟩ := ht.encodes hbooks
    exact ih.trans ⟨more, hmore.pieces.symm⟩

/-- A position that was encoded is in the log unless it was given up since. -/
theorem kept_or_given_up (h : Life cfg n.writer n.index n.world n.ledger)
    (hturns : Relation.ReflTransGen (Turn cfg) n n') (hi : n.world.pieces.length ≤ i)
    (hp : n'.world.pieces[i]? = some p) (hstart : p.start ≤ pos) (hstop : pos < p.stop) :
    pos < n'.reach ∨ ∃ m m', Relation.ReflTransGen (Turn cfg) n m ∧ GivesUp cfg pos m m' ∧
      Relation.ReflTransGen (Turn cfg) m' n' ∧ i < m'.world.pieces.length := by
  induction hturns with
  | refl =>
    have hlt := (List.getElem?_eq_some_iff.1 hp).1
    omega
  | @tail n' n'' hturns ht ih =>
    obtain ⟨q, c, hbooks⟩ := (h.turns_on hturns).books
    obtain ⟨more, hmore⟩ := ht.encodes hbooks
    have hlt := (List.getElem?_eq_some_iff.1 hp).1
    have hnow (hor : pos < n''.reach ∨ GivesUp cfg pos n' n'') :
        pos < n''.reach ∨ ∃ m m', Relation.ReflTransGen (Turn cfg) n m ∧ GivesUp cfg pos m m' ∧
          Relation.ReflTransGen (Turn cfg) m' n'' ∧ i < m'.world.pieces.length :=
      hor.imp_right fun hgives => ⟨n', n'', hturns, hgives, .refl, hlt⟩
    rw [hmore.pieces] at hp
    by_cases hold : i < n'.world.pieces.length
    · rw [List.getElem?_append_left hold] at hp
      rcases ih hp with hkept | ⟨m, m', hbefore, hgives, hafter, him⟩
      · exact hnow (hmore.log pos hkept)
      · exact .inr ⟨m, m', hbefore, hgives, hafter.tail ht, him⟩
    · rw [List.getElem?_append_right (Nat.le_of_not_lt hold)] at hp
      exact hnow (hmore.record p (List.mem_of_getElem? hp) pos hstart hstop)

/-- Where two pieces that were encoded under one key stream overlap, the log was cut back in
between: a turn after the first of them and before the second left it ending there at the latest. -/
theorem given_up_of_overlap (h : Life cfg n.writer n.index n.world n.ledger)
    (hturns : Relation.ReflTransGen (Turn cfg) n n') (hi : n.world.pieces.length ≤ i) (hij : i < j)
    (hp : n'.world.pieces[i]? = some p) (hp' : n'.world.pieces[j]? = some p') (hid : p.id = p'.id)
    {x : Nat} {v v' : UInt8} (hv : p.byte? x = some v) (hv' : p'.byte? x = some v') :
    ∃ m m', Relation.ReflTransGen (Turn cfg) n m ∧ GivesUp cfg (p.id.start + x) m m' ∧
      Relation.ReflTransGen (Turn cfg) m' n' ∧ i < m'.world.pieces.length ∧
      m'.world.pieces.length ≤ j := by
  obtain ⟨hstart, hstop⟩ := Piece.bounds_of_byte? hv
  obtain ⟨hstart', -⟩ := Piece.bounds_of_byte? hv'
  rw [← hid] at hstart'
  induction hturns with
  | refl =>
    have hlt := (List.getElem?_eq_some_iff.1 hp).1
    omega
  | @tail n' n'' hturns ht ih =>
    obtain ⟨q, c, hbooks⟩ := (h.turns_on hturns).books
    obtain ⟨more, hmore⟩ := ht.encodes hbooks
    rw [hmore.pieces] at hp hp'
    by_cases hold' : j < n'.world.pieces.length
    · rw [List.getElem?_append_left (hij.trans hold')] at hp
      rw [List.getElem?_append_left hold'] at hp'
      obtain ⟨m, m', hbefore, hgives, hafter, him, hjm⟩ := ih hp hp'
      exact ⟨m, m', hbefore, hgives, hafter.tail ht, him, hjm⟩
    have hnew' := Nat.le_of_not_lt hold'
    rw [List.getElem?_append_right hnew'] at hp'
    by_cases hold : i < n'.world.pieces.length
    · rw [List.getElem?_append_left hold] at hp
      rcases h.kept_or_given_up hturns hi hp hstart hstop with
        hkept | ⟨m, m', hbefore, hgives, hafter, him⟩
      · have hbehind := hmore.behind p' (List.mem_of_getElem? hp')
        omega
      · have hlen := ((h.turns_on (hbefore.tail hgives.turn)).prefix_pieces hafter).length_le
        exact ⟨m, m', hbefore, hgives, hafter.tail ht, him, hlen.trans hnew'⟩
    · rw [List.getElem?_append_right (Nat.le_of_not_lt hold)] at hp
      obtain ⟨hlt, rfl⟩ := List.getElem?_eq_some_iff.1 hp
      obtain ⟨hlt', rfl⟩ := List.getElem?_eq_some_iff.1 hp'
      have hapart := List.pairwise_iff_getElem.1 hmore.pairwise _ _ hlt hlt' (by omega)
      omega

end Life

/-- Circumstances in which only so many pieces of a live segment can be encoded. -/
def Circumstances.encoding (count : Nat) : Circumstances where
  faults := ({} : Table Hook Fault).insert .encodeAt ⟨count, false, 0⟩
  returns h f hf := by
    rw [Table.get?_insert] at hf
    split at hf
    · cases hf
      rfl
    · simp at hf

/-- In the segment behind the first, an append fails after its length was written, and another one
takes its place. That one is lost with its writer, and a third one takes its place. -/
theorem exists_overlap :
    ∃ n n' : Moment, Life .plain n.writer n.index n.world n.ledger ∧
      Relation.ReflTransGen (Turn .plain) n n' ∧ n.world.pieces.length = 2 ∧
      n'.world.saltsUsed = [0, 1] ∧
      n'.world.pieces.drop 2 = [⟨⟨2, 1⟩, 0, [4]⟩, ⟨⟨2, 1⟩, 1, [8, 9]⟩, ⟨⟨2, 1⟩, 0, [2]⟩,
        ⟨⟨2, 1⟩, 1, [5]⟩, ⟨⟨2, 1⟩, 0, [2]⟩, ⟨⟨2, 1⟩, 1, [6]⟩] ∧
      n'.world.written.drop 2 = [⟨⟨2, 1⟩, 0, [4]⟩, ⟨⟨2, 1⟩, 0, [2]⟩, ⟨⟨2, 1⟩, 1, [5]⟩,
        ⟨⟨2, 1⟩, 0, [2]⟩, ⟨⟨2, 1⟩, 1, [6]⟩] := by
  have hlife := ((Life.found World.sound_blank (World.Calm.returns rfl) (by decide) Founding.blank
    rfl).act ⟨.append [7] (by decide), {}⟩).act ⟨.sealLive, {}⟩
  let failed : Step := ⟨.append [8, 9] (by decide), .encoding 1⟩
  let lost : Step := ⟨.append [5] (by decide), {}⟩
  let next : Step := ⟨.append [6] (by decide), {}⟩
  obtain ⟨writer, w, g, hlife, hlen, hopen, hfacts⟩ :
      ∃ writer w g, Life .plain (some writer) 0 w g ∧ w.pieces.length = 2 ∧
        (lost.take (failed.take (writer, w)).2).2.2.stores[0]?.any (!·.closed) = true ∧
        (Writer.resume .plain 0).passes (fun writer w =>
          let w := (next.take (writer, w.under 0 {})).2.2
          w.saltsUsed == [0, 1] &&
          w.pieces.drop 2 == [⟨⟨2, 1⟩, 0, [4]⟩, ⟨⟨2, 1⟩, 1, [8, 9]⟩, ⟨⟨2, 1⟩, 0, [2]⟩,
            ⟨⟨2, 1⟩, 1, [5]⟩, ⟨⟨2, 1⟩, 0, [2]⟩, ⟨⟨2, 1⟩, 1, [6]⟩] &&
          w.written.drop 2 == [⟨⟨2, 1⟩, 0, [4]⟩, ⟨⟨2, 1⟩, 0, [2]⟩, ⟨⟨2, 1⟩, 1, [5]⟩,
            ⟨⟨2, 1⟩, 0, [2]⟩, ⟨⟨2, 1⟩, 1, [6]⟩])
          ((lost.take (failed.take (writer, w)).2).2.2.under 0 {}) = true :=
    ⟨_, _, _, hlife, by decide +kernel, by decide +kernel, by decide +kernel⟩
  obtain ⟨writer', w', hop, hfacts⟩ := Op.exists_of_passes hfacts
  have hturns : Relation.ReflTransGen (Turn .plain) ⟨some writer, 0, w, g⟩ _ :=
    .tail (.tail (.tail (.tail (.single (.act writer 0 w g failed)) (.act _ _ _ _ lost))
      (.drop _ _ _ _)) (.enter _ (.refl _) (by decide) (.of_open hopen) {} hop)) (.act _ _ _ _ next)
  simp only [Bool.and_eq_true, beq_iff_eq] at hfacts
  obtain ⟨⟨hsalts, hpieces⟩, hwritten⟩ := hfacts
  exact ⟨⟨some writer, 0, w, g⟩, _, hlife, hturns, hlen, hsalts, hpieces, hwritten⟩

/-- The payloads of the second and of the third append overlap, and the writer went in between. -/
theorem given_up_of_overlap_reopened :
    ∃ n n' m m' : Moment, Life .plain n.writer n.index n.world n.ledger ∧
      n'.world.pieces[5]? = some ⟨⟨2, 1⟩, 1, [5]⟩ ∧ n'.world.pieces[7]? = some ⟨⟨2, 1⟩, 1, [6]⟩ ∧
      Relation.ReflTransGen (Turn .plain) n m ∧ GivesUp .plain 3 m m' ∧
      Relation.ReflTransGen (Turn .plain) m' n' ∧ 5 < m'.world.pieces.length ∧
      m'.world.pieces.length ≤ 7 := by
  obtain ⟨n, n', hlife, hturns, hlen, -, hpieces, -⟩ := exists_overlap
  have hat (k : Nat) : n'.world.pieces[2 + k]? = (n'.world.pieces.drop 2)[k]? :=
    List.getElem?_drop.symm
  have hp : n'.world.pieces[5]? = some ⟨⟨2, 1⟩, 1, [5]⟩ := (hat 3).trans (by rw [hpieces]; rfl)
  have hp' : n'.world.pieces[7]? = some ⟨⟨2, 1⟩, 1, [6]⟩ := (hat 5).trans (by rw [hpieces]; rfl)
  have hv : Piece.byte? ⟨⟨2, 1⟩, 1, [5]⟩ 1 = some 5 := rfl
  have hv' : Piece.byte? ⟨⟨2, 1⟩, 1, [6]⟩ 1 = some 6 := rfl
  obtain ⟨m, m', hbefore, hgives, hafter, hlt, hle⟩ :=
    hlife.given_up_of_overlap hturns (by omega) (by decide) hp hp' rfl hv hv'
  exact ⟨n, n', m, m', hlife, hp, hp', hbefore, hgives, hafter, hlt, hle⟩

/-- A byte of a key stream can be used for two different bytes, with all salts different. -/
theorem key_bytes_reused :
    ∃ n : Moment, Life .plain n.writer n.index n.world n.ledger ∧ n.world.saltsUsed.Nodup ∧
      ¬ Piece.OneByteEach n.world.written := by
  obtain ⟨n, n', hlife, hturns, -, hsalts, -, hwritten⟩ := exists_overlap
  have hmem {p : Piece} (hp : p ∈ n'.world.written.drop 2) : p ∈ n'.world.written :=
    List.mem_of_mem_drop hp
  refine ⟨n', hlife.turns_on hturns, by rw [hsalts]; decide, fun hone => ?_⟩
  have hbyte := hone ⟨⟨2, 1⟩, 1, [5]⟩ (hmem (by rw [hwritten]; decide)) ⟨⟨2, 1⟩, 1, [6]⟩
    (hmem (by rw [hwritten]; decide)) rfl 1 5 6 rfl rfl
  exact absurd hbyte (by decide)

end RecordLog
