import Mathlib
import RecordLog.Descriptor
import RecordLog.Path

/-!
# Names of the files of a log

`padded` is injective: the value of its digits is the position, however many zeros stand in front.
With their endings the names of live files, chunks, drafts and the index are all different, and
each of them is one part of a path.
-/

namespace RecordLog

theorem toList_pushn (s : String) (c : Char) (n : Nat) :
    (s.pushn c n).toList = s.toList ++ List.replicate n c := by
  rw [String.pushn_eq_repeat_push]
  induction n with
  | zero => simp [Nat.repeat]
  | succ n ih => simp [Nat.repeat, ih, List.replicate_succ']

theorem toList_padded (pos : Nat) :
    (padded pos).toList =
      List.replicate (12 - pos.repr.length) '0' ++ Nat.toDigits 10 pos := by
  simp [padded, toList_pushn, Nat.toString_eq_repr]

theorem isDigit_of_mem_padded {pos : Nat} {c : Char} (h : c ∈ (padded pos).toList) :
    c.isDigit = true := by
  rw [toList_padded, List.mem_append] at h
  rcases h with h | h
  · rw [(List.mem_replicate.1 h).2]; decide
  · exact Nat.isDigit_of_mem_toDigits (by decide) (by decide) h

theorem ofDigitChars_padded (pos : Nat) : Nat.ofDigitChars 10 (padded pos).toList 0 = pos := by
  rw [toList_padded, Nat.ofDigitChars_append, Nat.ofDigitChars_replicate_zero]
  simp

theorem padded_injective {p q : Nat} (h : padded p = padded q) : p = q := by
  rw [← ofDigitChars_padded p, h, ofDigitChars_padded]

theorem bufferFileName_injective {p q : Nat} (h : bufferFileName p = bufferFileName q) : p = q :=
  padded_injective h

theorem append_right_injective {s t u : String} (h : s ++ u = t ++ u) : s = t := by
  have := congrArg String.toList h
  simp only [String.toList_append, List.append_cancel_right_eq] at this
  exact String.toList_injective this

theorem chunkFileName_injective {p q : Nat} (h : chunkFileName p = chunkFileName q) : p = q :=
  padded_injective (append_right_injective h)

theorem draftFileName_injective {p q : Nat} (h : draftFileName p = draftFileName q) : p = q :=
  padded_injective (append_right_injective h)

/-- A name made of digits ends in a digit, so no ending can be told for another. -/
theorem padded_append_ne_padded {p q : Nat} {s : String} {c : Char} (hc : c ∈ s.toList)
    (hd : c.isDigit = false) : padded p ++ s ≠ padded q := by
  intro h
  have hm : c ∈ (padded q).toList := by
    rw [← h, String.toList_append]
    exact List.mem_append_right _ hc
  simp [isDigit_of_mem_padded hm] at hd

theorem chunkFileName_ne_bufferFileName (p q : Nat) : chunkFileName p ≠ bufferFileName q :=
  padded_append_ne_padded (s := ".chunk") (c := '.') (by decide) (by decide)

theorem draftFileName_ne_bufferFileName (p q : Nat) : draftFileName p ≠ bufferFileName q :=
  padded_append_ne_padded (s := ".tmp") (c := '.') (by decide) (by decide)

theorem getLast?_toList_append (s : String) {t : String} {c : Char}
    (h : t.toList.getLast? = some c) : (s ++ t).toList.getLast? = some c := by
  rw [String.toList_append, List.getLast?_append, h]
  rfl

theorem draftFileName_ne_chunkFileName (p q : Nat) : draftFileName p ≠ chunkFileName q := by
  intro h
  have hd : (draftFileName p).toList.getLast? = some 'p' :=
    getLast?_toList_append _ (t := ".tmp") (by decide)
  rw [h, chunkFileName, getLast?_toList_append _ (t := ".chunk") (c := 'k') (by decide)] at hd
  exact absurd hd (by decide)

/-- The names that a log gives to its files. -/
inductive LogName : String → Prop where
  | live (start : Nat) : LogName (bufferFileName start)
  | chunk (start : Nat) : LogName (chunkFileName start)
  | draft (start : Nat) : LogName (draftFileName start)

theorem padded_ne_nil (pos : Nat) : (padded pos).toList ≠ [] := by
  rw [toList_padded]
  simp [Nat.toDigits_ne_nil]

theorem head_padded_append (pos : Nat) (s : String) :
    ∃ c rest, (padded pos ++ s).toList = c :: rest ∧ c.isDigit = true := by
  cases h : (padded pos).toList with
  | nil => exact absurd h (padded_ne_nil pos)
  | cons c rest =>
    refine ⟨c, rest ++ s.toList, by simp [String.toList_append, h], ?_⟩
    have hmem : c ∈ (padded pos).toList := by simp [h]
    exact isDigit_of_mem_padded hmem

theorem LogName.eq_padded_append {name : String} (h : LogName name) :
    ∃ pos s, name = padded pos ++ s ∧ (s = "" ∨ s = ".chunk" ∨ s = ".tmp") := by
  cases h with
  | live start => exact ⟨start, "", by simp [bufferFileName], .inl rfl⟩
  | chunk start => exact ⟨start, ".chunk", rfl, .inr (.inl rfl)⟩
  | draft start => exact ⟨start, ".tmp", rfl, .inr (.inr rfl)⟩

theorem LogName.mem_toList {name : String} (h : LogName name) {c : Char} (hc : c ∈ name.toList) :
    c.isDigit = true ∨ c ∈ ".chunk".toList ∨ c ∈ ".tmp".toList := by
  obtain ⟨pos, s, rfl, hs⟩ := h.eq_padded_append
  rw [String.toList_append, List.mem_append] at hc
  rcases hc with hc | hc
  · exact .inl (isDigit_of_mem_padded hc)
  · rcases hs with rfl | rfl | rfl
    · simp at hc
    · exact .inr (.inl hc)
    · exact .inr (.inr hc)

theorem LogName.plain {name : String} (h : LogName name) : Path.Plain name := by
  obtain ⟨pos, s, hn, -⟩ := h.eq_padded_append
  obtain ⟨c, rest, hl, hc⟩ := head_padded_append pos s
  rw [← hn] at hl
  refine ⟨fun hm => ?_, ?_, ?_, fun hm => ?_⟩
  · rcases h.mem_toList hm with hd | hd | hd <;> exact absurd hd (by decide)
  · rintro (rfl | rfl)
    · simp at hl
    · simp only [show ".".toList = ['.'] from rfl, List.cons.injEq] at hl
      rw [← hl.1] at hc
      exact absurd hc (by decide)
  · rintro rfl
    simp only [show "..".toList = ['.', '.'] from rfl, List.cons.injEq] at hl
    rw [← hl.1] at hc
    exact absurd hc (by decide)
  · rcases h.mem_toList hm with hd | hd | hd <;> exact absurd hd (by decide)

theorem LogName.ne_index {name : String} (h : LogName name) : name ≠ indexFileName := by
  obtain ⟨pos, s, hn, -⟩ := h.eq_padded_append
  obtain ⟨c, rest, hl, hc⟩ := head_padded_append pos s
  rintro he
  rw [← hn, he] at hl
  simp only [indexFileName, show "meta.redb".toList = ['m', 'e', 't', 'a', '.', 'r', 'e', 'd', 'b']
    from rfl, List.cons.injEq] at hl
  rw [← hl.1] at hc
  exact absurd hc (by decide)

end RecordLog
