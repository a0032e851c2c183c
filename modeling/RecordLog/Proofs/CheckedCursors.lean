import Mathlib
import RecordLog.Record
import RecordLog.Proofs.Calls

/-!
# Cursors with checked arithmetic

In memory positions and lengths have 64 bits, and a cursor is the bytes of its segment with an
offset into them. Here an operation on such a cursor crashes where a sum needs more than 64 bits, a
difference falls below zero or a range is not within its bytes. The only thing of that kind that can
happen is that a record ends beyond the last position of 64 bits. Up to there the cursor yields what
a plain one does, so it always does if the position where the bytes end has 64 bits.
-/

namespace RecordLog

namespace Op

/-- Sum of two positions or lengths, which must have 64 bits. -/
def sum (a b : Nat) : Op Nat := if a + b < 2 ^ 64 then pure (a + b) else throw .crash

def between (bs : Bytes) (first last : Nat) : Op Bytes :=
  if first ≤ last ∧ last ≤ bs.length then pure ((bs.take last).drop first) else throw .crash

variable {α β : Type} {a b first last : Nat} {bs : Bytes}

theorem bind_of_ok {x : Op α} {f : α → Op β} {a : α} {w w' : World} (h : x w = .ok a w') :
    (x >>= f) w = f a w' := by
  simp only [bind, EStateM.bind, h]

theorem bind_of_error {x : Op α} {f : α → Op β} {stop : Stop} {w w' : World}
    (h : x w = .error stop w') : (x >>= f) w = .error stop w' := by
  simp only [bind, EStateM.bind, h]

theorem sum_eq (h : a + b < 2 ^ 64) (w : World) : sum a b w = .ok (a + b) w := by
  rw [sum, if_pos h]
  rfl

theorem sum_bind_crash {f : Nat → Op α} {w : World}
    (h : a + b < 2 ^ 64 → f (a + b) w = .error .crash w) :
    (sum a b >>= f) w = .error .crash w := by
  by_cases hlt : a + b < 2 ^ 64
  · rw [bind_of_ok (sum_eq hlt w)]
    exact h hlt
  · rw [sum, if_neg hlt]
    rfl

theorem between_eq (h : first ≤ last) (hl : last ≤ bs.length) (w : World) :
    between bs first last w = .ok ((bs.take last).drop first) w := by
  rw [between, if_pos ⟨h, hl⟩]
  rfl

end Op

namespace Checked

structure Cursor where
  /-- The name errors give to the segment. -/
  name : String
  segment : Nat
  /-- Position in the log of the first byte of `data`. -/
  base : Nat
  data : Bytes
  /-- How far `data` was read. -/
  offset : Nat := 0
  lenient : Bool
  finished : Bool := false
  deriving Repr, DecidableEq

namespace Cursor

def pos (c : Cursor) : Op Nat := Op.sum c.base c.offset

def finish (c : Cursor) : Cursor := { c with finished := true }

def fail (c : Cursor) (reason : String) : Op (Option (Except Error Record) × Cursor) :=
  pure (some (.error (.corrupt c.name reason)), c.finish)

def torn (c : Cursor) (what : String) : Op (Option (Except Error Record) × Cursor) :=
  if c.lenient then pure (none, c.finish)
  else do
    let pos ← c.pos
    c.fail s!"{what} at position {pos}"

def take (c : Cursor) (body stop : Nat) : Op (Option (Except Error Record) × Cursor) := do
  let start ← c.pos
  let data ← Op.between c.data body stop
  let behind := { c with offset := stop }
  let next ← behind.pos
  pure (some (.ok ⟨data, c.segment, start, next⟩), behind)

def next (c : Cursor) : Op (Option (Except Error Record) × Cursor) :=
  if c.finished || decide (c.data.length ≤ c.offset) then pure (none, c)
  else do
    let rest ← Op.between c.data c.offset c.data.length
    match Varint.read rest with
    | .short => c.torn "truncated length prefix"
    | .overlong => c.fail "varint overflow"
    | .value len used =>
      if len < 0 then
        let pos ← c.pos
        c.fail s!"negative record length {len} at position {pos}"
      else
        let left ← Op.difference rest.length used
        if left < len.toNat then c.torn "truncated payload"
        else
          let body ← Op.sum c.offset used
          let stop ← Op.sum body len.toNat
          c.take body stop

def plain (c : Cursor) : RecordLog.Cursor where
  name := c.name
  segment := c.segment
  pos := c.base + c.offset
  rest := c.data.drop c.offset
  lenient := c.lenient
  finished := c.finished

/-- The offset is within the bytes, and these end at a position of 64 bits. -/
structure Fits (c : Cursor) : Prop where
  offset : c.offset ≤ c.data.length
  stop : c.base + c.data.length < 2 ^ 64

/-- An operation on a cursor does not crash, and yields what a plain cursor does. -/
def Yields (op : Op (Option (Except Error Record) × Cursor))
    (plainly : Option (Except Error Record) × RecordLog.Cursor) (w : World) : Prop :=
  ∃ found c, op w = .ok (found, c) w ∧ plainly = (found, c.plain) ∧ c.Fits

structure Reaches (c : Cursor) : Prop where
  offset : c.offset ≤ c.data.length
  pos : c.base + c.offset < 2 ^ 64

/-- What an operation on a cursor comes to beside a plain one: it yields the same, or it crashes at a
record that ends beyond 64 bits. -/
inductive Follows (c : Cursor) (w : World)
    (plainly : Option (Except Error Record) × RecordLog.Cursor) :
    EStateM.Result Stop World (Option (Except Error Record) × Cursor) → Prop where
  | yields {found : Option (Except Error Record)} {c' : Cursor} (h : plainly = (found, c'.plain))
      (hc : c'.Reaches) (hsame : c'.base = c.base ∧ c'.data = c.data)
      (hend : ∀ r, found = some (.ok r) → r.next < 2 ^ 64) : Follows c w plainly (.ok (found, c') w)
  | crashes {r : Record} {p : RecordLog.Cursor} (h : plainly = (some (.ok r), p))
      (hr : 2 ^ 64 ≤ r.next) (hle : r.next ≤ c.base + c.data.length) :
      Follows c w plainly (.error .crash w)

theorem Follows.bind_of_eq {α : Type} {x : Op α} {a : α}
    {f : α → Op (Option (Except Error Record) × Cursor)} {c : Cursor}
    {plainly : Option (Except Error Record) × RecordLog.Cursor} {w : World} (hx : x w = .ok a w)
    (h : Follows c w plainly (f a w)) : Follows c w plainly ((x >>= f) w) := by
  rwa [Op.bind_of_ok hx]

variable {c : Cursor}

namespace Reaches

theorem pos_eq (h : c.Reaches) (w : World) : c.pos w = .ok (c.base + c.offset) w :=
  Op.sum_eq h.pos w

theorem finish (h : c.Reaches) : c.finish.Reaches := ⟨h.offset, h.pos⟩

theorem fail (h : c.Reaches) (reason : String) (w : World) :
    Follows c w (c.plain.fail reason) (c.fail reason w) :=
  .yields rfl h.finish ⟨rfl, rfl⟩ fun _ hr => by cases hr

theorem torn (h : c.Reaches) (what : String) (w : World) :
    Follows c w (c.plain.torn what) (c.torn what w) := by
  unfold Cursor.torn RecordLog.Cursor.torn
  rw [show c.plain.lenient = c.lenient from rfl]
  split
  · exact .yields rfl h.finish ⟨rfl, rfl⟩ fun _ hr => by cases hr
  · exact .bind_of_eq (h.pos_eq w) (h.fail _ w)

theorem take (h : c.Reaches) {used len : Nat} (hlen : c.offset + used + len ≤ c.data.length)
    (w : World) :
    Follows c w
      (some (.ok ⟨((c.data.drop c.offset).drop used).take len, c.segment, c.base + c.offset,
          c.base + c.offset + used + len⟩),
        { c.plain with
          pos := c.base + c.offset + used + len
          rest := ((c.data.drop c.offset).drop used).drop len })
      ((do
        let body ← Op.sum c.offset used
        let stop ← Op.sum body len
        c.take body stop : Op _) w) := by
  have hdata : (c.data.take (c.offset + used + len)).drop (c.offset + used) =
      ((c.data.drop c.offset).drop used).take len := by
    rw [List.drop_drop, List.take_drop]
  have hpos : c.base + (c.offset + used + len) = c.base + c.offset + used + len := by omega
  have hbetween : Op.between c.data (c.offset + used) (c.offset + used + len) w = .ok _ w :=
    Op.between_eq (Nat.le_add_right _ _) hlen w
  rw [← hpos, ← hdata, List.drop_drop, List.drop_drop, ← Nat.add_assoc c.offset]
  by_cases hlt : c.base + (c.offset + used + len) < 2 ^ 64
  · have hbehind : Reaches { c with offset := c.offset + used + len } := ⟨hlen, hlt⟩
    refine .bind_of_eq (Op.sum_eq (by omega) w) (.bind_of_eq (Op.sum_eq (by omega) w) ?_)
    refine .bind_of_eq (h.pos_eq w) (.bind_of_eq hbetween (.bind_of_eq (hbehind.pos_eq w) ?_))
    refine .yields rfl hbehind ⟨rfl, rfl⟩ ?_
    rintro _ ⟨⟩
    exact hlt
  · have hcrash : (do
        let body ← Op.sum c.offset used
        let stop ← Op.sum body len
        c.take body stop : Op _) w = .error .crash w := by
      refine Op.sum_bind_crash fun _ => Op.sum_bind_crash fun _ => ?_
      rw [Cursor.take, Op.bind_of_ok (h.pos_eq w), Op.bind_of_ok hbetween]
      exact Op.sum_bind_crash fun hsum => absurd hsum hlt
    rw [hcrash]
    exact .crashes rfl (Nat.le_of_not_lt hlt) (Nat.add_le_add_left hlen _)

theorem next (h : c.Reaches) (w : World) : Follows c w c.plain.next (c.next w) := by
  have hend : c.plain.rest.isEmpty = decide (c.data.length ≤ c.offset) := by
    rw [Bool.eq_iff_iff, List.isEmpty_iff, decide_eq_true_eq]
    exact List.drop_eq_nil_iff
  have hrest : Op.between c.data c.offset c.data.length w = .ok (c.data.drop c.offset) w := by
    rw [Op.between_eq h.offset (Nat.le_refl _), List.take_length]
  unfold Cursor.next RecordLog.Cursor.next
  rw [hend, show c.plain.finished = c.finished from rfl,
    show c.plain.rest = c.data.drop c.offset from rfl]
  split
  · exact .yields rfl h ⟨rfl, rfl⟩ fun _ hr => by cases hr
  refine .bind_of_eq hrest ?_
  cases hread : Varint.read (c.data.drop c.offset) with
  | short => exact h.torn _ w
  | overlong => exact h.fail _ w
  | value len used =>
    obtain ⟨-, hused⟩ := Varint.used_le_of_read hread
    dsimp only
    split
    · exact .bind_of_eq (h.pos_eq w) (h.fail _ w)
    refine .bind_of_eq (Op.difference_eq hused w) ?_
    have hlength : (((c.data.drop c.offset).drop used).take len.toNat).length =
        min len.toNat ((c.data.drop c.offset).length - used) := by
      rw [List.length_take, List.length_drop]
    by_cases hlt : (c.data.drop c.offset).length - used < len.toNat
    · rw [if_pos hlt, if_pos (by omega)]
      exact h.torn _ w
    · rw [if_neg hlt, if_neg (by omega), hlength, Nat.min_eq_left (Nat.le_of_not_lt hlt)]
      have hstop : c.offset + used + len.toNat ≤ c.data.length := by
        have hoffset := h.offset
        rw [List.length_drop] at hlt hused
        omega
      exact h.take hstop w

end Reaches

/-- As long as a cursor fits into 64 bits, it yields what the plain one does. -/
theorem Fits.next (h : c.Fits) (w : World) : Yields c.next c.plain.next w := by
  have hreaches : c.Reaches := ⟨h.offset, (Nat.add_le_add_left h.offset _).trans_lt h.stop⟩
  have hfollows := hreaches.next w
  generalize hx : c.next w = result at hfollows
  cases hfollows with
  | yields hplain hc hsame _ =>
    refine ⟨_, _, hx, hplain, hc.offset, ?_⟩
    rw [hsame.1, hsame.2]
    exact h.stop
  | crashes _ hr hle => exact absurd (hle.trans_lt h.stop) (Nat.not_lt.2 hr)

end Cursor

end Checked

end RecordLog
