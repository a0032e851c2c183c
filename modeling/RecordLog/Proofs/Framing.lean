import Mathlib
import RecordLog.Proofs.Records

/-!
# Records in any bytes

A cursor over bytes of any kind yields the records that it can read from the front on. They lie one
behind the other, and unless the cursor is lenient it ends without an error only when there is
nothing left.
-/

namespace RecordLog

namespace Record

/-- A record is as long as the length that was read for it and its payload. -/
def Framed (r : Record) : Prop :=
  ∃ pre rest, Varint.read (pre ++ r.data ++ rest) = .value r.data.length pre.length ∧
    r.next = r.start + pre.length + r.data.length

/-- Records lie one behind the other from one position up to another. -/
def Tiles : Nat → List Record → Nat → Prop
  | start, [], stop => start = stop
  | start, r :: rs, stop => r.start = start ∧ r.Framed ∧ Tiles r.next rs stop

/-- Bytes of a segment, from a position on, that read as some records, and what is left of them. -/
inductive Runs (segment : Nat) : Nat → Bytes → List Record → Bytes → Prop where
  | nil (pos : Nat) (left : Bytes) : Runs segment pos left [] left
  | cons {pos : Nat} {pre data rest : Bytes} {rs : List Record} {left : Bytes}
      (hread : Varint.read (pre ++ data ++ rest) = .value data.length pre.length)
      (hrest : Runs segment (pos + pre.length + data.length) rest rs left) :
      Runs segment pos (pre ++ data ++ rest)
        (⟨data, segment, pos, pos + pre.length + data.length⟩ :: rs) left

theorem Tiles.start_le {start stop : Nat} {rs : List Record} (h : Tiles start rs stop) :
    start ≤ stop := by
  induction rs generalizing start with
  | nil => exact Nat.le_of_eq h
  | cons r rs ih =>
    obtain ⟨hstart, ⟨pre, rest, -, hnext⟩, hrest⟩ := h
    have hle := ih hrest
    omega

theorem Tiles.append {start mid stop : Nat} {rs rs' : List Record} (h : Tiles start rs mid)
    (h' : Tiles mid rs' stop) : Tiles start (rs ++ rs') stop := by
  induction rs generalizing start with
  | nil =>
    obtain rfl : start = mid := h
    exact h'
  | cons r rs ih =>
    obtain ⟨hstart, hframed, hrest⟩ := h
    exact ⟨hstart, hframed, ih hrest⟩

namespace Runs

variable {segment pos : Nat} {bytes left : Bytes} {rs : List Record}

theorem tiles (h : Runs segment pos bytes rs left) :
    ∃ stop, Tiles pos rs stop ∧ stop + left.length = pos + bytes.length := by
  induction h with
  | nil pos left => exact ⟨pos, rfl, rfl⟩
  | @cons pos pre data rest rs left hread hrest ih =>
    obtain ⟨stop, htiles, hstop⟩ := ih
    refine ⟨stop, ⟨rfl, ⟨pre, rest, hread, rfl⟩, htiles⟩, ?_⟩
    simp only [List.length_append]
    omega

theorem segment_of_mem (h : Runs segment pos bytes rs left) {r : Record} (hr : r ∈ rs) :
    r.segment = segment := by
  induction h with
  | nil pos left => cases hr
  | cons hread hrest ih =>
    rcases List.mem_cons.1 hr with rfl | hr
    · rfl
    · exact ih hr

end Runs

end Record

namespace Cursor

open Record

variable {c c' : Cursor} {r : Record}

theorem next_eq_record (h : c.next = (some (.ok r), c')) :
    ∃ pre rest, c.rest = pre ++ r.data ++ rest ∧
      Varint.read (pre ++ r.data ++ rest) = .value r.data.length pre.length ∧
      r = ⟨r.data, c.segment, c.pos, c.pos + pre.length + r.data.length⟩ ∧
      c' = { c with pos := c.pos + pre.length + r.data.length, rest } := by
  unfold next at h
  split at h
  · simp at h
  split at h
  · unfold torn fail at h
    split at h <;> simp at h
  · simp [fail] at h
  · rename_i len used hread
    obtain ⟨-, hle⟩ := Varint.used_le_of_read hread
    split at h
    · simp [fail] at h
    rename_i hlen
    dsimp only at h
    split at h
    · unfold torn fail at h
      split at h <;> simp at h
    rename_i hwhole
    simp only [Prod.mk.injEq, Option.some.injEq, Except.ok.injEq] at h
    obtain ⟨rfl, rfl⟩ := h
    have hused : (c.rest.take used).length = used := List.length_take_of_le hle
    have hdata : ((c.rest.drop used).take len.toNat).length = len.toNat :=
      Nat.le_antisymm (List.length_take_le _ _) (Nat.le_of_not_lt hwhole)
    have hsplit : c.rest = c.rest.take used ++ (c.rest.drop used).take len.toNat ++
        (c.rest.drop used).drop len.toNat := by
      rw [List.append_assoc, List.take_append_drop, List.take_append_drop]
    have hnat : (len.toNat : Int) = len := Int.toNat_of_nonneg (Int.not_lt.1 hlen)
    refine ⟨c.rest.take used, (c.rest.drop used).drop len.toNat, hsplit, ?_, ?_, ?_⟩
    · rw [← hsplit, hread, hused, hdata, hnat]
    · rw [hused]
    · rw [hused, hdata]

theorem rest_of_next (h : c.next = (none, c')) (hf : c.finished = false)
    (hl : c.lenient = false) : c.rest = [] := by
  unfold next at h
  split at h
  · rename_i hend
    rw [hf, Bool.false_or, List.isEmpty_iff] at hend
    exact hend
  split at h
  · simp [torn, fail, hl] at h
  · simp [fail] at h
  · split at h
    · simp [fail] at h
    dsimp only at h
    split at h
    · simp [torn, fail, hl] at h
    · simp at h

theorem nextFrom_zero (c : Cursor) : c.nextFrom 0 = c.next := by
  rw [nextFrom_eq]
  split
  · rename_i h
    rw [if_neg (Nat.not_lt_zero _), h]
  · rfl

/-- All that a cursor yields runs through its bytes. -/
theorem drain_runs (hf : c.finished = false) :
    ∃ left, Runs c.segment c.pos c.rest (c.drain 0).1 left ∧
      ((c.drain 0).2 = none → c.lenient = false → left = []) := by
  induction hn : c.rest.length using Nat.strong_induction_on generalizing c with
  | _ n ih =>
    subst hn
    rw [drain_eq, nextFrom_zero]
    cases hx : c.next with
    | mk found c' =>
      match found with
      | none =>
        refine ⟨c.rest, .nil _ _, fun _ hl => ?_⟩
        exact rest_of_next hx hf hl
      | some (.error e) => exact ⟨c.rest, .nil _ _, fun h => by cases h⟩
      | some (.ok r) =>
        obtain ⟨pre, rest, hrest, hread, hr, rfl⟩ := next_eq_record hx
        obtain ⟨left, hruns, hleft⟩ := ih rest.length (rest_lt_of_next hx)
          (c := { c with pos := c.pos + pre.length + r.data.length, rest }) hf rfl
        refine ⟨left, ?_, hleft⟩
        rw [hrest, hr]
        exact .cons hread hruns

end Cursor

end RecordLog
