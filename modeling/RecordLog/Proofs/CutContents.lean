import Mathlib
import RecordLog.Proofs.CheckedCursors
import RecordLog.Proofs.Records

/-!
# A content that was cut short

A cursor over the front of a content yields the records that lie wholly in it. If the cut falls into
a record, a lenient cursor ends there as if nothing followed, and any other one reports once where
that record starts. From then on it yields nothing. A cut between two records goes unnoticed.

The content may start at any position of 64 bits. A record in it has a place in the log only if it
ends at such a position too, and a cursor that comes to one that does not crashes there.
-/

namespace RecordLog

namespace Record

/-- A position falls into a record, and onto neither of its ends. -/
def straddles (pos : Nat) (r : Record) : Bool := decide (r.start < pos) && decide (pos < r.next)

variable {segment pos stop k : Nat} {p : Bytes} {ps : List Bytes}

theorem filter_next_line_eq_self (h : pos + extent ps ≤ stop) :
    (line segment pos ps).filter (·.next ≤ stop) = line segment pos ps := by
  refine List.filter_eq_self.2 fun r hr => ?_
  have := bounds_of_mem_line hr
  simp only [decide_eq_true_eq]
  omega

theorem filter_next_line_append {qs rest : List Bytes} (hle : pos + extent qs ≤ stop)
    (hlt : ∀ p ∈ rest.head?, stop < pos + extent qs + size p) :
    (line segment pos (qs ++ rest)).filter (·.next ≤ stop) = line segment pos qs := by
  rw [line_append, List.filter_append, filter_next_line_eq_self hle]
  cases rest with
  | nil => exact List.append_nil _
  | cons p rest => rw [filter_next_line_eq_nil (hlt p rfl), List.append_nil]

theorem find?_straddles_eq_none (h : stop ≤ pos ∨ pos + extent ps ≤ stop) :
    (line segment pos ps).find? (straddles stop) = none := by
  refine List.find?_eq_none.2 fun r hr => ?_
  have := bounds_of_mem_line hr
  simp only [straddles, Bool.and_eq_true, decide_eq_true_eq]
  omega

/-- A content is cut where one of its payloads ends, or within one. -/
theorem exists_cut (h : k ≤ extent ps) :
    (∃ qs rest, ps = qs ++ rest ∧ k = extent qs) ∨
      ∃ qs p rest, ps = qs ++ p :: rest ∧ extent qs < k ∧ k < extent qs + size p := by
  induction ps generalizing k with
  | nil => exact .inl ⟨[], [], rfl, Nat.le_zero.1 h⟩
  | cons p ps ih =>
    rw [extent_cons] at h
    rcases Nat.eq_zero_or_pos k with rfl | hpos
    · exact .inl ⟨[], p :: ps, rfl, rfl⟩
    by_cases hk : size p ≤ k
    · obtain ⟨i, rfl⟩ := Nat.exists_eq_add_of_le hk
      rcases ih (k := i) (by omega) with ⟨qs, rest, rfl, rfl⟩ | ⟨qs, p', rest, rfl, hlt, hgt⟩
      · exact .inl ⟨p :: qs, rest, rfl, (extent_cons p qs).symm⟩
      · refine .inr ⟨p :: qs, p', rest, rfl, ?_, ?_⟩ <;> rw [extent_cons] <;> omega
    · exact .inr ⟨[], p, ps, rfl, hpos, by rw [extent_nil]; omega⟩

theorem find?_straddles_of_cut {qs rest : List Bytes} (hlt : extent qs < k)
    (hgt : k < extent qs + size p) :
    (line segment pos (qs ++ p :: rest)).find? (straddles (pos + k)) =
      some ⟨p, segment, pos + extent qs, pos + extent qs + size p⟩ := by
  have hin : straddles (pos + k) ⟨p, segment, pos + extent qs, pos + extent qs + size p⟩ = true := by
    simp only [straddles, Bool.and_eq_true, decide_eq_true_eq]
    omega
  rw [line_append, List.find?_append, find?_straddles_eq_none (.inr (by omega)), Option.none_or,
    line, List.find?_cons, hin]

/-- A cut falls into no record just if payloads end there. -/
theorem find?_straddles_eq_none_iff (h : k ≤ extent ps) :
    (line segment pos ps).find? (straddles (pos + k)) = none ↔ ∃ qs, qs <+: ps ∧ k = extent qs := by
  refine ⟨fun hnone => ?_, ?_⟩
  · rcases exists_cut h with ⟨qs, rest, rfl, rfl⟩ | ⟨qs, p, rest, rfl, hlt, hgt⟩
    · exact ⟨qs, List.prefix_append _ _, rfl⟩
    · rw [find?_straddles_of_cut hlt hgt] at hnone
      cases hnone
  · rintro ⟨qs, ⟨rest, rfl⟩, rfl⟩
    rw [line_append, List.find?_append, find?_straddles_eq_none (.inr (Nat.le_refl _)),
      find?_straddles_eq_none (.inl (Nat.le_refl _))]
    rfl

theorem take_contents_of_cut {qs rest : List Bytes} (hlt : extent qs < k)
    (hgt : k < extent qs + size p) :
    (contents (qs ++ p :: rest)).take k = contents qs ++ (encode p).take (k - extent qs) := by
  rw [contents_append, List.take_append, length_contents, contents_cons,
    List.take_of_length_le (by rw [length_contents]; exact Nat.le_of_lt hlt),
    List.take_append_of_le_length (by rw [length_encode]; omega)]

end Record

open Record

namespace Cursor

def answer (c : Cursor) : Nat → Option (Except Error Record)
  | 0 => c.next.1
  | i + 1 => c.next.2.answer i

def cutError (name : String) (stop : Nat) (r : Record) : Error :=
  let what := missing r.data (stop - r.start)
  .corrupt name s!"{what} at position {r.start}"

/-- What there is to yield of records that were cut at a position. -/
def items (name : String) (lenient : Bool) (stop : Nat) (records : List Record) :
    List (Except Error Record) :=
  let whole := records.filter (·.next ≤ stop)
  let cut := if lenient then none else records.find? (straddles stop)
  whole.map .ok ++ (cut.map fun r => .error (cutError name stop r)).toList

variable {c : Cursor} {p t : Bytes} {ps : List Bytes} {k : Nat}

theorem answer_of_idle (h : c.next = (none, c)) (i : Nat) : c.answer i = none := by
  induction i with
  | zero => rw [answer, h]
  | succ i ih => rw [answer, h, ih]

theorem answer_finish (c : Cursor) (i : Nat) : c.finish.answer i = none :=
  answer_of_idle (by simp [next, finish]) i

/-- Whole records are yielded one after the other, and then what follows them. -/
theorem answer_of_contents (hf : c.finished = false) (hr : c.rest = contents ps ++ t)
    (hp : ∀ p ∈ ps, Writable p) {xs : List (Except Error Record)}
    (hx : ∀ i, ({ c with pos := c.pos + extent ps, rest := t } : Cursor).answer i = xs[i]?)
    (i : Nat) : c.answer i = ((line c.segment c.pos ps).map .ok ++ xs)[i]? := by
  induction ps generalizing c i with
  | nil =>
    obtain rfl : c.rest = t := hr
    exact hx i
  | cons p ps ih =>
    obtain ⟨hp₀, hp⟩ := List.forall_mem_cons.1 hp
    rw [contents_cons, List.append_assoc] at hr
    have hn := next_of_record hf hr hp₀
    cases i with
    | zero => rw [answer, hn]; rfl
    | succ i =>
      rw [answer, hn]
      refine ih (c := { c with pos := c.pos + size p, rest := contents ps ++ t }) hf rfl hp
        (fun i => ?_) i
      rw [← hx i, extent_cons, Nat.add_assoc]

/-- What is left of a cut record is reported unless the cursor is lenient, and nothing after it. -/
theorem answer_of_cut (hf : c.finished = false) (hr : c.rest = (encode p).take k) (hpos : 0 < k)
    (hk : k < size p) (hp : Writable p) (i : Nat) :
    c.answer i = (if c.lenient then [] else
      [.error (cutError c.name (c.pos + k) ⟨p, c.segment, c.pos, c.pos + size p⟩)] :
        List (Except Error Record))[i]? := by
  have hn := next_of_cut hf hr hpos hk hp
  have hwhat : missing p (c.pos + k - c.pos) = missing p k := by rw [Nat.add_sub_cancel_left]
  cases hl : c.lenient with
  | true =>
    rw [torn, if_pos hl] at hn
    cases i with
    | zero => rw [answer, hn]; rfl
    | succ i => rw [answer, hn]; exact answer_finish c i
  | false =>
    rw [torn, hl, if_neg Bool.false_ne_true] at hn
    cases i with
    | zero => rw [answer, hn, cutError, hwhat]; rfl
    | succ i => rw [answer, hn]; exact answer_finish c i

theorem items_of_end (name : String) (lenient : Bool) (segment pos : Nat) (qs rest : List Bytes) :
    items name lenient (pos + extent qs) (line segment pos (qs ++ rest)) =
      (line segment pos qs).map .ok ++ [] := by
  have hle : extent qs ≤ extent (qs ++ rest) := by
    rw [extent_append]
    exact Nat.le_add_right _ _
  have hwhole : (line segment pos (qs ++ rest)).filter (·.next ≤ pos + extent qs) =
      line segment pos qs := by
    refine filter_next_line_append (Nat.le_refl _) fun p _ => ?_
    have := size_pos p
    omega
  rw [items, (find?_straddles_eq_none_iff hle).2 ⟨qs, List.prefix_append _ _, rfl⟩, hwhole, ite_self]
  rfl

theorem items_of_cut {name : String} {lenient : Bool} {segment pos : Nat} {qs rest : List Bytes}
    (hlt : extent qs < k) (hgt : k < extent qs + size p) :
    items name lenient (pos + k) (line segment pos (qs ++ p :: rest)) =
      (line segment pos qs).map .ok ++ if lenient then [] else [.error (cutError name (pos + k)
        ⟨p, segment, pos + extent qs, pos + extent qs + size p⟩)] := by
  have hwhole : (line segment pos (qs ++ p :: rest)).filter (·.next ≤ pos + k) =
      line segment pos qs := by
    refine filter_next_line_append (by omega) fun p' hp' => ?_
    obtain rfl : p = p' := Option.some.inj hp'
    omega
  rw [items, hwhole, find?_straddles_of_cut hlt hgt]
  cases lenient <;> rfl

theorem answer_front (name : String) (segment pos : Nat) (lenient : Bool)
    (hp : ∀ p ∈ ps, Writable p) (hk : k ≤ extent ps) (i : Nat) :
    ({ name, segment, pos, rest := (contents ps).take k, lenient } : Cursor).answer i =
      (items name lenient (pos + k) (line segment pos ps))[i]? := by
  rcases exists_cut hk with ⟨qs, rest, rfl, rfl⟩ | ⟨qs, p, rest, rfl, hlt, hgt⟩
  · have hrest : (contents (qs ++ rest)).take (extent qs) = contents qs ++ [] := by
      rw [contents_append, ← length_contents, List.take_left, List.append_nil]
    rw [items_of_end]
    exact answer_of_contents rfl hrest (fun p hq => hp p (List.mem_append_left _ hq))
      (answer_of_idle (next_of_nil rfl)) i
  · have hp₀ : Writable p := hp p (List.mem_append_right _ List.mem_cons_self)
    have hpos : pos + extent qs + (k - extent qs) = pos + k := by omega
    rw [items_of_cut hlt hgt]
    refine answer_of_contents rfl (take_contents_of_cut hlt hgt)
      (fun p hq => hp p (List.mem_append_left _ hq)) (fun i => ?_) i
    have hcut := answer_of_cut (c := ⟨name, segment, pos + extent qs,
      (encode p).take (k - extent qs), lenient, false⟩) rfl rfl (by omega) (by omega) hp₀ i
    rw [hpos] at hcut
    exact hcut

def endsInWord : Except Error Record → Bool
  | .ok r => decide (r.next < 2 ^ 64)
  | .error _ => true

theorem endsInWord_of_mem_items {name : String} {lenient : Bool} {stop : Nat}
    {records : List Record} (hstop : stop < 2 ^ 64) {x : Except Error Record}
    (hx : x ∈ items name lenient stop records) : endsInWord x = true := by
  rcases List.mem_append.1 hx with hwhole | hcut
  · obtain ⟨r, hr, rfl⟩ := List.mem_map.1 hwhole
    have hnext := (List.mem_filter.1 hr).2
    exact decide_eq_true ((of_decide_eq_true hnext).trans_lt hstop)
  · obtain ⟨r, -, rfl⟩ := Option.map_eq_some_iff.1 (Option.mem_toList.1 hcut)
    rfl

end Cursor

namespace Checked.Cursor

open RecordLog.Cursor (items endsInWord)

def answer (c : Cursor) : Nat → Op (Option (Except Error Record))
  | 0 => do return (← c.next).1
  | i + 1 => do (← c.next).2.answer i

variable {c : Cursor} {ps : List Bytes} {k : Nat}

theorem all_take_succ (f : Except Error Record → Bool) (xs : List (Except Error Record)) (i : Nat) :
    (xs.take (i + 1)).all f = (xs[0]?.all f && (xs.tail.take i).all f) := by
  cases xs with
  | nil => simp
  | cons x xs => rfl

namespace Reaches

theorem next_cases (h : c.Reaches) (w : World) :
    (c.plain.next.1.all endsInWord = true ∧ ∃ c' : Cursor, c'.Reaches ∧
        c.plain.next.2 = c'.plain ∧ c.next w = .ok (c.plain.next.1, c') w) ∨
      c.plain.next.1.all endsInWord = false ∧ c.next w = .error .crash w := by
  have hnext := h.next w
  generalize hc : c.next w = result at hnext
  cases hnext with
  | @yields found c' hplain hc' _ hend =>
    rw [hplain]
    refine .inl ⟨?_, c', hc', rfl, rfl⟩
    rcases found with _ | _ | r
    · rfl
    · rfl
    · exact decide_eq_true (hend r rfl)
  | crashes hplain hr _ =>
    rw [hplain]
    exact .inr ⟨decide_eq_false (Nat.not_lt.2 hr), rfl⟩

/-- A call gives what it gives plainly, or crashes as one up to it came to a record that ends beyond
64 bits. -/
theorem answer_eq (h : c.Reaches) {xs : List (Except Error Record)}
    (hx : ∀ i, c.plain.answer i = xs[i]?) (i : Nat) (w : World) :
    c.answer i w = if (xs.take (i + 1)).all endsInWord then .ok xs[i]? w else .error .crash w := by
  induction i generalizing c xs with
  | zero =>
    have hfirst : c.plain.next.1 = xs[0]? := hx 0
    have hcases := h.next_cases w
    rw [hfirst] at hcases
    rw [all_take_succ, answer]
    rcases hcases with ⟨hword, c', -, -, hnext⟩ | ⟨hword, hnext⟩
    · rw [Op.bind_of_ok hnext, hword]
      rfl
    · rw [Op.bind_of_error hnext, hword]
      rfl
  | succ i ih =>
    have hfirst : c.plain.next.1 = xs[0]? := hx 0
    have hrest (i : Nat) : c.plain.next.2.answer i = xs.tail[i]? := by
      rw [List.getElem?_tail]
      exact hx (i + 1)
    have hcases := h.next_cases w
    rw [hfirst] at hcases
    rw [all_take_succ, answer]
    rcases hcases with ⟨hword, c', hc', hplain, hnext⟩ | ⟨hword, hnext⟩
    · rw [Op.bind_of_ok hnext, hword, Bool.true_and, ← List.getElem?_tail]
      exact ih hc' (hplain ▸ hrest)
    · rw [Op.bind_of_error hnext, hword]
      rfl

end Reaches

/-- A cursor over the front of a content yields the records wholly in it, and then, if it is not
lenient and the cut falls into a record, one error. It crashes only at a record that ends beyond the
positions of 64 bits, and that cannot be if the cut is within them. The cut falls into no record just
if payloads end there. -/
theorem answer_take_contents (name : String) (segment base : UInt64) (lenient : Bool)
    (hp : ∀ p ∈ ps, Writable p) (hk : k ≤ extent ps) :
    let cursor : Cursor := {
      name, segment := segment.toNat, base := base.toNat, data := (contents ps).take k, lenient }
    let records := line segment.toNat base.toNat ps
    let found := items name lenient (base.toNat + k) records
    (base.toNat + k < 2 ^ 64 → ∀ i w, cursor.answer i w = .ok found[i]? w) ∧
      (∀ i w, cursor.answer i w =
        if (found.take (i + 1)).all endsInWord then .ok found[i]? w else .error .crash w) ∧
      (records.find? (straddles (base.toNat + k)) = none ↔ ∃ qs, qs <+: ps ∧ k = extent qs) := by
  intro cursor records found
  have hreaches : cursor.Reaches := ⟨Nat.zero_le _, base.toNat_lt⟩
  have hanswer (i : Nat) (w : World) := hreaches.answer_eq (fun i =>
    RecordLog.Cursor.answer_front name segment.toNat base.toNat lenient hp hk i) i w
  refine ⟨fun hword i w => ?_, hanswer, find?_straddles_eq_none_iff hk⟩
  rw [hanswer, if_pos]
  exact List.all_eq_true.2 fun x hx =>
    RecordLog.Cursor.endsInWord_of_mem_items hword (List.mem_of_mem_take hx)

/-- The cut leaves the first of the two bytes that give the length of the third payload. In another
place the second record ends behind the last position there is. -/
theorem answer_take_contents_inLength :
    let ps : List Bytes := [[1, 2], [], List.replicate 70 7]
    let cursor (base : UInt64) : Cursor := {
      name := "c", segment := 90, base := base.toNat, data := (contents ps).take 5, lenient := false }
    (∀ p ∈ ps, Writable p) ∧ 5 ≤ extent ps ∧
      (∀ i w, (cursor 100).answer i w = .ok ([.ok ⟨[1, 2], 90, 100, 103⟩,
        .ok ⟨[], 90, 103, 104⟩, .error (.corrupt "c" "truncated length prefix at position 104")] :
            List (Except Error Record))[i]? w) ∧
      ∀ w, (cursor (2 ^ 64 - 4)).answer 0 w =
          .ok (some (.ok ⟨[1, 2], 90, 2 ^ 64 - 4, 2 ^ 64 - 1⟩)) w ∧
        (cursor (2 ^ 64 - 4)).answer 1 w = .error .crash w := by
  intro ps cursor
  have hp : ∀ p ∈ ps, Writable p := by decide
  have hk : 5 ≤ extent ps := by decide
  have hitems : items "c" false (100 + 5) (line 90 100 ps) = [.ok ⟨[1, 2], 90, 100, 103⟩,
      .ok ⟨[], 90, 103, 104⟩, .error (.corrupt "c" "truncated length prefix at position 104")] := by
    decide +kernel
  let base : UInt64 := 2 ^ 64 - 4
  have hlast : items "c" false (base.toNat + 5) (line (90 : UInt64).toNat base.toNat ps) =
      [.ok ⟨[1, 2], 90, 2 ^ 64 - 4, 2 ^ 64 - 1⟩, .ok ⟨[], 90, 2 ^ 64 - 1, 2 ^ 64⟩,
        .error (.corrupt "c" "truncated length prefix at position 18446744073709551616")] := by
    decide +kernel
  obtain ⟨hfront, -, -⟩ := answer_take_contents "c" 90 100 false hp hk
  obtain ⟨-, hcut, -⟩ := answer_take_contents "c" 90 base false hp hk
  rw [hlast] at hcut
  refine ⟨hp, hk, fun i w => ?_, fun w => ⟨?_, ?_⟩⟩
  · rw [← hitems]
    exact hfront (by decide) i w
  · exact (hcut 0 w).trans (if_pos (by decide))
  · exact (hcut 1 w).trans (if_neg (by decide))

end Checked.Cursor

end RecordLog
