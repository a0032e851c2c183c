import Mathlib
import RecordLog.Proofs.Agreement
import RecordLog.Proofs.Frames

/-!
# The books of a log

Where each segment of a log starts, how long it is and how many records it has is kept apart from
its bytes: in the state of the live segment, and in the index. `Posting` lists what an operation can
enter there, together with the pieces it encodes, and `Catalog.Describes` is what all of them
preserve.
-/

namespace RecordLog

open Record

namespace BufferState

/-- A segment is empty as long as it has no records, and with two or more of them it is within its
capacity. -/
structure Sized (b : BufferState) : Prop where
  empty : b.records = 0 ↔ b.pos = 0
  within : 2 ≤ b.records → b.pos ≤ b.capacity

def add (b : BufferState) (n : Nat) : BufferState :=
  { b with pos := b.pos + n, records := b.records + 1 }

def chunk (b : BufferState) (diskSize : Nat) : Chunk :=
  ⟨chunkFileName b.start, b.start, b.pos, diskSize, b.records⟩

/-- A record as it is encoded at the end of a segment, the length first and then the payload. -/
def pieces (b : BufferState) (data : Bytes) : List Piece :=
  [⟨b.id, b.pos, Varint.encode data.length⟩,
    ⟨b.id, b.pos + (Varint.encode data.length).length, data⟩]

structure Precedes (s b : BufferState) : Prop where
  start : s.start = b.start
  salt : s.salt = b.salt
  capacity : s.capacity = b.capacity
  file : s.file = b.file
  pos : s.pos ≤ b.pos
  records : s.records ≤ b.records

variable {s b : BufferState} {n : Nat}

theorem Precedes.refl (b : BufferState) : b.Precedes b :=
  ⟨rfl, rfl, rfl, rfl, Nat.le_refl _, Nat.le_refl _⟩

theorem Precedes.add (h : s.Precedes b) (n : Nat) : s.Precedes (b.add n) :=
  { h with
    pos := h.pos.trans (Nat.le_add_right _ _)
    records := h.records.trans (Nat.le_succ _) }

theorem sized_fresh (start capacity : Nat) (salt : UInt64) :
    (fresh start capacity salt).Sized where
  empty := Iff.rfl
  within h := by simp [fresh] at h

theorem Sized.add (h : b.Sized) (hn : 0 < n) (hf : b.fits n = true) : (b.add n).Sized where
  empty := by
    simp only [BufferState.add]
    omega
  within := by
    intro h2
    simp only [BufferState.add] at h2 ⊢
    have hpos : b.pos ≠ 0 := by
      intro h0
      have := h.empty.2 h0
      omega
    simpa [fits, hpos] using hf

theorem Sized.records_eq_one (h : b.Sized) (hlt : b.capacity < b.pos) : b.records = 1 := by
  have hempty := h.empty
  have hwithin := h.within
  omega

end BufferState

namespace Chunk.Tile

variable {start stop : Nat} {es : List (Nat × Chunk)}

theorem start_le (h : Tile start stop es) : start ≤ stop := by
  induction es generalizing start with
  | nil => exact Nat.le_of_eq h
  | cons e es ih =>
    obtain ⟨-, hstart, -, hrest⟩ := h
    have := ih hrest
    simp only [Chunk.stop] at this
    omega

theorem bounds_of_mem (h : Tile start stop es) {e : Nat × Chunk} (he : e ∈ es) :
    e.2.start = e.1 ∧ e.1 < e.2.stop ∧ e.2.stop ≤ stop := by
  induction es generalizing start with
  | nil => cases he
  | cons f es ih =>
    obtain ⟨hkey, hstart, hsize, hrest⟩ := h
    rcases List.mem_cons.1 he with rfl | he
    · refine ⟨hstart.trans hkey.symm, ?_, hrest.start_le⟩
      simp only [Chunk.stop]
      omega
    · exact ih hrest he

theorem lt_of_mem (h : Tile start stop es) {e : Nat × Chunk} (he : e ∈ es) : e.1 < stop := by
  obtain ⟨-, hlt, hle⟩ := h.bounds_of_mem he
  exact hlt.trans_le hle

theorem snoc (h : Tile start stop es) {c : Chunk} (hstart : c.start = stop) (hsize : 0 < c.size) :
    Tile start c.stop (es ++ [(stop, c)]) := by
  induction es generalizing start with
  | nil =>
    obtain rfl : start = stop := h
    exact ⟨rfl, hstart, hsize, rfl⟩
  | cons e es ih =>
    obtain ⟨hkey, hs, hz, hrest⟩ := h
    exact ⟨hkey, hs, hz, ih hrest⟩

end Chunk.Tile

/-- What an index says of a log with this live segment. -/
structure Catalog.Describes (c : Catalog) (b : BufferState) : Prop where
  tile : Chunk.Tile 0 b.start c.chunks.entries
  file : b.file = bufferFileName b.start
  sized : b.Sized
  described : ∃ s, c.buffer = some s ∧ s.Precedes b ∧ s.Sized

namespace Catalog.Describes

variable {c : Catalog} {b : BufferState}

theorem add (h : c.Describes b) {n : Nat} (hn : 0 < n) (hf : b.fits n = true) :
    c.Describes (b.add n) where
  tile := h.tile
  file := h.file
  sized := h.sized.add hn hf
  described := by
    obtain ⟨s, hs, hp, hz⟩ := h.described
    exact ⟨s, hs, hp.add n, hz⟩

theorem entries_seal (h : c.Describes b) (diskSize : Nat) (next : BufferState) :
    (c.seal (b.chunk diskSize) next).chunks.entries =
      c.chunks.entries ++ [(b.start, b.chunk diskSize)] :=
  PositionMap.put_of_forall_lt fun _ he => h.tile.lt_of_mem he

theorem sealed (h : c.Describes b) (hpos : b.pos ≠ 0) (diskSize capacity : Nat) (salt : UInt64) :
    (c.seal (b.chunk diskSize) (.fresh b.stop capacity salt)).Describes
      (.fresh b.stop capacity salt) where
  tile := by
    have hsize : 0 < (b.chunk diskSize).size := Nat.pos_of_ne_zero hpos
    rw [h.entries_seal]
    exact h.tile.snoc rfl hsize
  file := rfl
  sized := BufferState.sized_fresh _ _ _
  described := ⟨_, rfl, .refl _, BufferState.sized_fresh _ _ _⟩

theorem keep (h : c.Describes b) (stats : Option Stats) :
    { c with buffer := some b, stats }.Describes b where
  tile := h.tile
  file := h.file
  sized := h.sized
  described := ⟨b, rfl, .refl b, h.sized⟩

theorem named (h : c.Describes b) (checkpoints : Table String Nat) :
    { c with checkpoints }.Describes b :=
  ⟨h.tile, h.file, h.sized, h.described⟩

theorem cut (h : c.Describes b) {s : BufferState} (hs : c.buffer = some s) : c.Describes s := by
  obtain ⟨s', hs', hp, hz⟩ := h.described
  rw [hs] at hs'
  obtain rfl := Option.some.inj hs'
  refine ⟨?_, ?_, hz, s, hs, .refl s, hz⟩
  · rw [hp.start]
    exact h.tile
  · rw [hp.file, hp.start]
    exact h.file

end Catalog.Describes

/-- The live segment has room for so many bytes, as it is or because the one before was sealed. -/
inductive Room (capacity : Nat) (b : BufferState) (c : Catalog) (n : Nat) :
    BufferState → Catalog → Prop where
  | fits (h : b.fits n = true) : Room capacity b c n b c
  | sealed {salt : UInt64} {diskSize : Nat} (h : b.fits n = false) :
      Room capacity b c n (.fresh b.stop capacity salt)
        (c.seal (b.chunk diskSize) (.fresh b.stop capacity salt))

/-- What an operation enters into the books, by its answer, and what it encodes for the live
segment. -/
inductive Posting (capacity : Nat) (b : BufferState) (c : Catalog) :
    Action → Except Stop (Option Nat) → BufferState → Catalog → List Piece → Prop where
  | appended {data : Bytes} {hd : Writable data} {b₁ : BufferState} {c₁ : Catalog}
      (hroom : Room capacity b c (size data) b₁ c₁) :
      Posting capacity b c (.append data hd) (.ok (some (b₁.add (size data)).stop))
        (b₁.add (size data)) c₁ (b₁.pieces data)
  | broken {data : Bytes} {hd : Writable data} {e : Error} {b₁ : BufferState} {c₁ : Catalog}
      {pieces : List Piece} (hroom : Room capacity b c (size data) b₁ c₁)
      (hp : pieces <+: b₁.pieces data) :
      Posting capacity b c (.append data hd) (.error (.error e)) b₁ c₁ pieces
  | sealed {salt : UInt64} {diskSize : Nat} (h : b.pos ≠ 0) :
      Posting capacity b c .sealLive (.ok none) (.fresh b.stop capacity salt)
        (c.seal (b.chunk diskSize) (.fresh b.stop capacity salt)) []
  | kept {stats : Stats} :
      Posting capacity b c .checkpoint (.ok (some b.stop)) b
        { c with buffer := some b, stats := some stats } []
  | same {a : Action} {answer : Except Stop (Option Nat)} {checkpoints : Table String Nat}
      (h : a.kept answer = none ∧ a.appended answer = [])
      (hc : a.covers answer b b = true → b.pos = 0) :
      Posting capacity b c a answer b { c with checkpoints } []

variable {capacity : Nat} {b b' : BufferState} {c c' : Catalog}

theorem pos_ne_zero_of_not_fits {n : Nat} (h : b.fits n = false) : b.pos ≠ 0 := by
  intro h0
  simp [BufferState.fits, h0] at h

namespace Room

variable {n : Nat}

theorem describes (h : c.Describes b) (hr : Room capacity b c n b' c') : c'.Describes b' := by
  cases hr with
  | fits _ => exact h
  | sealed hf => exact h.sealed (pos_ne_zero_of_not_fits hf) _ _ _

theorem fits_eq (hr : Room capacity b c n b' c') : b'.fits n = true := by
  cases hr with
  | fits h => exact h
  | sealed _ => rfl

theorem stop_eq (hr : Room capacity b c n b' c') : b'.stop = b.stop := by
  cases hr with
  | fits _ => rfl
  | sealed _ => rfl

end Room

namespace Posting

variable {a : Action} {answer : Except Stop (Option Nat)} {pieces : List Piece}

theorem describes (h : c.Describes b) (he : Posting capacity b c a answer b' c' pieces) :
    c'.Describes b' := by
  cases he with
  | appended hroom => exact (hroom.describes h).add (size_pos _) hroom.fits_eq
  | broken hroom _ => exact hroom.describes h
  | sealed hpos => exact h.sealed hpos _ _ _
  | kept => exact h.keep _
  | same _ _ => exact h.named _

theorem stop_le (he : Posting capacity b c a answer b' c' pieces) : b.stop ≤ b'.stop := by
  cases he with
  | appended hroom =>
    rw [← hroom.stop_eq]
    exact Nat.add_le_add_left (Nat.le_add_right _ _) _
  | broken hroom _ => exact Nat.le_of_eq hroom.stop_eq.symm
  | sealed _ => exact Nat.le_refl _
  | kept => exact Nat.le_refl _
  | same _ _ => exact Nat.le_refl _

/-- A chunk that is new was made of the live segment. -/
theorem entries_eq (h : c.Describes b) (he : Posting capacity b c a answer b' c' pieces) :
    c'.chunks.entries = c.chunks.entries ∨
      ∃ diskSize next, b.pos ≠ 0 ∧ c' = c.seal (b.chunk diskSize) next ∧
        c'.chunks.entries = c.chunks.entries ++ [(b.start, b.chunk diskSize)] := by
  have hmade {n : Nat} {b₁ : BufferState} {c₁ : Catalog} (hr : Room capacity b c n b₁ c₁) :
      c₁.chunks.entries = c.chunks.entries ∨
        ∃ diskSize next, b.pos ≠ 0 ∧ c₁ = c.seal (b.chunk diskSize) next ∧
          c₁.chunks.entries = c.chunks.entries ++ [(b.start, b.chunk diskSize)] := by
    cases hr with
    | fits _ => exact .inl rfl
    | sealed hf =>
      exact .inr ⟨_, _, pos_ne_zero_of_not_fits hf, rfl, h.entries_seal _ _⟩
  cases he with
  | appended hroom => exact hmade hroom
  | broken hroom _ => exact hmade hroom
  | sealed hpos => exact .inr ⟨_, _, hpos, rfl, h.entries_seal _ _⟩
  | kept => exact .inl rfl
  | same _ _ => exact .inl rfl

theorem appended_eq_told (he : Posting capacity b c a answer b' c' pieces) :
    a.appended answer = told b.stop ((a.appended answer).map Prod.fst) ∧
      b'.stop = b.stop + extent ((a.appended answer).map Prod.fst) := by
  cases he with
  | @appended data hd b₁ c₁ hroom =>
    have hstop : (b₁.add (size data)).stop = b.stop + size data := by
      rw [← hroom.stop_eq]
      exact (Nat.add_assoc _ _ _).symm
    rw [hstop]
    exact ⟨rfl, by simp [Action.appended]⟩
  | broken hroom _ => exact ⟨rfl, hroom.stop_eq⟩
  | sealed _ => exact ⟨rfl, rfl⟩
  | kept => exact ⟨rfl, rfl⟩
  | same hsame _ =>
    rw [hsame.2]
    exact ⟨rfl, rfl⟩

/-- The position up to which a log is durable goes along with what the index describes. -/
theorem durable_eq (hb : c.Describes b) (he : Posting capacity b c a answer b' c' pieces)
    {durable : Nat} (hdurable : ∀ s, c.buffer = some s → durable = s.stop) {s : BufferState}
    (hs : c'.buffer = some s) : (if a.covers answer b b' then b.stop else durable) = s.stop := by
  have hnext {salt : UInt64} (hpos : b.pos ≠ 0) : (.fresh b.stop capacity salt : BufferState).start ≠
      b.start := by
    simp only [BufferState.fresh, BufferState.stop]
    omega
  cases he with
  | appended hroom =>
    cases hroom with
    | fits hf =>
      simp only [Action.covers, hf, Bool.not_true, Bool.false_eq_true, if_false]
      exact hdurable s hs
    | sealed hf =>
      simp only [Action.covers, hf, Bool.not_false, if_true]
      cases hs
      rfl
  | broken hroom _ =>
    cases hroom with
    | fits _ =>
      simp only [Action.covers, ne_eq, not_true_eq_false, decide_false, Bool.false_eq_true, if_false]
      exact hdurable s hs
    | sealed hf =>
      rw [Action.covers, if_pos (decide_eq_true (hnext (pos_ne_zero_of_not_fits hf)))]
      cases hs
      rfl
  | sealed _ =>
    cases hs
    rfl
  | kept =>
    cases hs
    rfl
  | same _ hempty =>
    cases hcovers : a.covers answer b b with
    | false => exact hdurable s hs
    | true =>
      obtain ⟨s', hs', hp, -⟩ := hb.described
      obtain rfl : s = s' := Option.some.inj (hs.symm.trans hs')
      have hpos := hempty hcovers
      have hle := hp.pos
      simp only [if_true, BufferState.stop, hp.start]
      omega

end Posting

end RecordLog
