import Mathlib
import RecordLog.Proofs.Numbers
import RecordLog.Scan

/-!
# The content of a segment

The plain content of a segment that holds some payloads is `Record.contents`. A cursor over it
yields one record for each payload, `Record.line`, and `Cursor.drain` is all that a cursor yields
from a position on.
-/

namespace RecordLog

namespace Record

/-- No byte string in memory is longer. -/
def Writable (payload : Bytes) : Prop := payload.length < 2 ^ 63

instance (payload : Bytes) : Decidable (Writable payload) := inferInstanceAs (Decidable (_ < _))

def contents (ps : List Bytes) : Bytes := ps.flatMap encode

/-- Bytes that payloads take in the log. -/
def extent (ps : List Bytes) : Nat := (ps.map size).sum

/-- The records of payloads that lie in a segment from a position on. -/
def line (segment : Nat) : (pos : Nat) → List Bytes → List Record
  | _, [] => []
  | pos, p :: ps => ⟨p, segment, pos, pos + size p⟩ :: line segment (pos + size p) ps

@[simp] theorem contents_nil : contents [] = [] := rfl

@[simp] theorem contents_cons (p : Bytes) (ps : List Bytes) :
    contents (p :: ps) = encode p ++ contents ps := rfl

@[simp] theorem contents_append (ps qs : List Bytes) :
    contents (ps ++ qs) = contents ps ++ contents qs := List.flatMap_append

@[simp] theorem extent_nil : extent [] = 0 := rfl

@[simp] theorem extent_cons (p : Bytes) (ps : List Bytes) :
    extent (p :: ps) = size p + extent ps := by simp [extent]

@[simp] theorem extent_append (ps qs : List Bytes) :
    extent (ps ++ qs) = extent ps + extent qs := by simp [extent]

@[simp] theorem length_contents (ps : List Bytes) : (contents ps).length = extent ps := by
  induction ps with
  | nil => rfl
  | cons p ps ih => simp [ih, length_encode]

theorem size_pos (p : Bytes) : 0 < size p := by
  have : 0 < Varint.size p.length := Base128.size_pos _
  unfold size
  omega

theorem length_le_extent (ps : List Bytes) : ps.length ≤ extent ps := by
  induction ps with
  | nil => simp
  | cons p ps ih =>
    have := size_pos p
    rw [List.length_cons, extent_cons]
    omega

theorem extent_pos {ps : List Bytes} (h : ps ≠ []) : 0 < extent ps := by
  have := length_le_extent ps
  have := List.length_pos_iff.2 h
  omega

theorem extent_eq_zero {ps : List Bytes} : extent ps = 0 ↔ ps = [] := by
  refine ⟨fun h => ?_, fun h => h ▸ rfl⟩
  by_contra hne
  have := extent_pos hne
  omega

theorem line_append (segment pos : Nat) (ps qs : List Bytes) :
    line segment pos (ps ++ qs) = line segment pos ps ++ line segment (pos + extent ps) qs := by
  induction ps generalizing pos with
  | nil => simp [line]
  | cons p ps ih => simp [line, ih, Nat.add_assoc]

theorem bounds_of_mem_line {segment pos : Nat} {ps : List Bytes} {r : Record}
    (h : r ∈ line segment pos ps) :
    pos ≤ r.start ∧ r.start < r.next ∧ r.next ≤ pos + extent ps := by
  induction ps generalizing pos with
  | nil => simp [line] at h
  | cons p ps ih =>
    rw [line, List.mem_cons] at h
    have := size_pos p
    rw [extent_cons]
    rcases h with rfl | h
    · dsimp only
      omega
    · have := ih h
      omega

theorem segment_of_mem_line {segment pos : Nat} {ps : List Bytes} {r : Record}
    (h : r ∈ line segment pos ps) : r.segment = segment := by
  induction ps generalizing pos with
  | nil => simp [line] at h
  | cons p ps ih =>
    rw [line, List.mem_cons] at h
    rcases h with rfl | h
    · rfl
    · exact ih h

theorem pairwise_line (segment pos : Nat) (ps : List Bytes) :
    (line segment pos ps).Pairwise (·.next ≤ ·.start) := by
  induction ps generalizing pos with
  | nil => exact .nil
  | cons p ps ih => exact .cons (fun _ hr => (bounds_of_mem_line hr).1) (ih _)

theorem filter_next_line_eq_nil {segment pos stop : Nat} {p : Bytes} {ps : List Bytes}
    (h : stop < pos + size p) : (line segment pos (p :: ps)).filter (·.next ≤ stop) = [] := by
  refine List.filter_eq_nil_iff.2 fun r hr => ?_
  rw [line, List.mem_cons] at hr
  simp only [decide_eq_true_eq]
  rcases hr with rfl | hr
  · dsimp only
    omega
  · have := bounds_of_mem_line hr
    omega

theorem filter_start_zero (rs : List Record) : rs.filter (0 ≤ ·.start) = rs :=
  List.filter_eq_self.2 fun _ _ => decide_eq_true (Nat.zero_le _)

theorem isPrefix_filter_next {rs : List Record} (h : rs.Pairwise (·.next ≤ ·.start))
    (hlt : ∀ r ∈ rs, r.start < r.next) (stop : Nat) : rs.filter (·.next ≤ stop) <+: rs := by
  induction h with
  | nil => exact List.prefix_refl _
  | @cons r rs hr _ ih =>
    by_cases hle : r.next ≤ stop
    · rw [List.filter_cons_of_pos (by simpa using hle), List.prefix_cons_inj]
      exact ih fun r' hr' => hlt r' (List.mem_cons_of_mem _ hr')
    · have hnone : rs.filter (·.next ≤ stop) = [] := by
        refine List.filter_eq_nil_iff.2 fun r' hr' => ?_
        have h₁ := hr r' hr'
        have h₂ := hlt r' (List.mem_cons_of_mem _ hr')
        simp only [decide_eq_true_eq]
        omega
      rw [List.filter_cons_of_neg (by simpa using hle), hnone]
      exact List.nil_prefix

theorem zigzag_length (p : Bytes) : Varint.zigzag p.length = 2 * p.length := rfl

theorem read_encode_append {p : Bytes} (h : Writable p) (t : Bytes) :
    Varint.read (encode p ++ t) = .value p.length (Varint.size p.length) := by
  rw [encode, List.append_assoc]
  apply Varint.read_encode_append
  rw [zigzag_length]
  unfold Writable at h
  omega

end Record

namespace Cursor

open Record

theorem next_of_nil {c : Cursor} (h : c.rest = []) : c.next = (none, c) := by
  simp [next, h]

theorem next_of_record {c : Cursor} {p t : Bytes} (hf : c.finished = false)
    (hr : c.rest = encode p ++ t) (hp : Writable p) :
    c.next = (some (.ok ⟨p, c.segment, c.pos, c.pos + size p⟩),
      { c with pos := c.pos + size p, rest := t }) := by
  have hne : c.rest.isEmpty = false := by
    rw [hr, encode, List.isEmpty_eq_false_iff]
    simp [Varint.encode_ne_nil]
  have hbody : c.rest.drop (Varint.size p.length) = p ++ t := by
    rw [hr, encode, List.append_assoc, ← Varint.length_encode, List.drop_left]
  have hread : Varint.read c.rest = .value p.length (Varint.size p.length) := by
    rw [hr, read_encode_append hp]
  simp only [next, hf, hne, Bool.or_self, Bool.false_eq_true, if_false, hread, hbody,
    Int.toNat_natCast, List.take_left, List.drop_left, Nat.lt_irrefl, size]
  rw [if_neg (by omega)]
  simp only [Nat.add_assoc]

theorem nextFrom_eq (c : Cursor) (start : Nat) :
    c.nextFrom start =
      match c.next with
      | (some (.ok r), c') => if r.start < start then c'.nextFrom start else (some (.ok r), c')
      | other => other := by
  rw [nextFrom]
  split
  · rename_i h
    simp only [h]
  · rename_i h
    split
    · rename_i r c' heq
      exact (h r c' heq).elim
    · rfl

/-- All records that a cursor yields from a position on, and the error that ends them. -/
def drain (c : Cursor) (start : Nat) : List Record × Option Error :=
  match h : c.nextFrom start with
  | (some (.ok r), c') =>
    have := nextFrom_lt h
    let (records, e) := c'.drain start
    (r :: records, e)
  | (some (.error e), _) => ([], some e)
  | (none, _) => ([], none)
termination_by c.rest.length

theorem drain_eq (c : Cursor) (start : Nat) :
    c.drain start =
      match c.nextFrom start with
      | (some (.ok r), c') => (r :: (c'.drain start).1, (c'.drain start).2)
      | (some (.error e), _) => ([], some e)
      | (none, _) => ([], none) := by
  rw [drain]
  split <;> rename_i h <;> simp only [h]

theorem drain_of_record {c : Cursor} {p t : Bytes} (hf : c.finished = false)
    (hr : c.rest = encode p ++ t) (hp : Writable p) (start : Nat) :
    c.drain start =
      ([⟨p, c.segment, c.pos, c.pos + size p⟩].filter (start ≤ ·.start) ++
        (drain { c with pos := c.pos + size p, rest := t } start).1,
      (drain { c with pos := c.pos + size p, rest := t } start).2) := by
  rw [drain_eq, nextFrom_eq, next_of_record hf hr hp]
  by_cases hs : c.pos < start
  · have hd : decide (start ≤ c.pos) = false := by simpa using hs
    simp only [hs, if_true, List.filter_cons, hd, Bool.false_eq_true, if_false, List.filter_nil,
      List.nil_append]
    rw [← drain_eq]
  · have hd : decide (start ≤ c.pos) = true := by simpa using hs
    simp only [hs, if_false, List.filter_cons, hd, if_true, List.filter_nil, List.singleton_append]

/-- A cursor over the content of a segment yields the records of its payloads. -/
theorem drain_contents {c : Cursor} {ps : List Bytes} (hf : c.finished = false)
    (hr : c.rest = contents ps) (hp : ∀ p ∈ ps, Writable p) (start : Nat) :
    c.drain start = ((line c.segment c.pos ps).filter (start ≤ ·.start), none) := by
  induction ps generalizing c with
  | nil => rw [drain_eq, nextFrom_eq, next_of_nil hr]; rfl
  | cons p ps ih =>
    rw [drain_of_record (t := contents ps) hf hr (hp p List.mem_cons_self),
      ih (c := { c with pos := c.pos + size p, rest := contents ps }) hf rfl
        (fun q hq => hp q (List.mem_cons_of_mem _ hq)), ← List.filter_append]
    rfl

/-- What is missing of a record that was cut to some of its bytes. -/
def missing (p : Bytes) (k : Nat) : String :=
  if k < Varint.size p.length then "truncated length prefix" else "truncated payload"

theorem next_of_cut {c : Cursor} {p : Bytes} {k : Nat} (hf : c.finished = false)
    (hr : c.rest = (encode p).take k) (hpos : 0 < k) (hk : k < size p) (hp : Writable p) :
    c.next = c.torn (missing p k) := by
  have hne : c.rest.isEmpty = false := by
    rw [hr, List.isEmpty_eq_false_iff]
    intro hnil
    have := congrArg List.length hnil
    rw [List.length_take, length_encode, List.length_nil] at this
    omega
  have hzigzag : Varint.zigzag p.length < 2 ^ 64 := by
    rw [zigzag_length]
    unfold Writable at hp
    omega
  simp only [next, hf, hne, Bool.or_self, Bool.false_eq_true, if_false]
  by_cases hprefix : k < Varint.size p.length
  · have hread : Varint.read c.rest = .short := by
      rw [hr, encode, List.take_append_of_le_length
        (by rw [Varint.length_encode]; exact Nat.le_of_lt hprefix)]
      exact Varint.read_take_encode hzigzag hprefix
    simp only [hread, missing, if_pos hprefix]
  · obtain ⟨i, rfl⟩ := Nat.exists_eq_add_of_le (Nat.le_of_not_lt hprefix)
    have hrest : c.rest = Varint.encode p.length ++ p.take i := by
      rw [hr, encode, ← Varint.length_encode, List.take_length_add_append]
    have hread : Varint.read c.rest = .value p.length (Varint.size p.length) := by
      rw [hrest]
      exact Varint.read_encode_append hzigzag _
    have hbody : c.rest.drop (Varint.size p.length) = p.take i := by
      rw [hrest, ← Varint.length_encode, List.drop_left]
    have hshort : ((p.take i).take p.length).length < p.length := by
      simp only [List.length_take]
      rw [size] at hk
      omega
    simp only [hread, hbody, Int.toNat_natCast, if_pos hshort, missing, if_neg hprefix]
    rw [if_neg (by omega)]

theorem next_of_torn {c : Cursor} {p : Bytes} {k : Nat} (hl : c.lenient = true)
    (hr : c.rest = (encode p).take k) (hk : k < size p) (hp : Writable p) : (c.next).1 = none := by
  cases hf : c.finished with
  | true => simp [next, hf]
  | false =>
    rcases Nat.eq_zero_or_pos k with rfl | hpos
    · rw [next_of_nil (by simpa using hr)]
    · rw [next_of_cut hf hr hpos hk hp, torn, if_pos hl]

/-- Of a content that was cut somewhere, a cursor yields the records that are whole. -/
theorem drain_take_contents {c : Cursor} {ps : List Bytes} {k : Nat} (hf : c.finished = false)
    (hl : c.lenient = true) (hr : c.rest = (contents ps).take k) (hp : ∀ p ∈ ps, Writable p)
    (start : Nat) :
    c.drain start = (((line c.segment c.pos ps).filter (·.next ≤ c.pos + k)).filter
      (start ≤ ·.start), none) := by
  induction ps generalizing c k with
  | nil =>
    rw [drain_eq, nextFrom_eq, next_of_nil (by simpa using hr)]
    rfl
  | cons p ps ih =>
    have hp₀ := hp p List.mem_cons_self
    rw [contents_cons] at hr
    by_cases hk : size p ≤ k
    · obtain ⟨i, rfl⟩ := Nat.exists_eq_add_of_le hk
      have hrest : c.rest = encode p ++ (contents ps).take i := by
        rw [hr, ← length_encode, List.take_length_add_append]
      have hwhole : decide (c.pos + size p ≤ c.pos + (size p + i)) = true := by simp
      rw [drain_of_record hf hrest hp₀,
        ih (c := { c with pos := c.pos + size p, rest := (contents ps).take i }) hf hl rfl
          (fun q hq => hp q (List.mem_cons_of_mem _ hq)), ← List.filter_append, line,
        List.filter_cons, if_pos hwhole, Nat.add_assoc]
      rfl
    · have hlt : k < size p := Nat.lt_of_not_le hk
      have hrest : c.rest = (encode p).take k := by
        rw [hr, List.take_append_of_le_length (by rw [length_encode]; exact Nat.le_of_lt hlt)]
      have hn := next_of_torn hl hrest hlt hp₀
      rw [filter_next_line_eq_nil (Nat.add_lt_add_left hlt _), drain_eq, nextFrom_eq]
      cases hx : c.next with
      | mk found c' =>
        rw [hx] at hn
        dsimp only at hn
        subst hn
        rfl

end Cursor

end RecordLog
