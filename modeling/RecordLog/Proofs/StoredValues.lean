import Mathlib
import RecordLog.Index
import RecordLog.Proofs.Numbers

/-!
# Stored values and the values they stand for

A stored value is read back if its numbers have 64 bits, and refused if one is larger; it is never
taken for another value. `Form` says so of a reader, and it goes through the fields one by one.
-/

namespace RecordLog

theorem toList_loop_eq (bs : Array UInt8) (n i : Nat) (r : List UInt8) (h : bs.size - i ≤ n) :
    ByteArray.toList.loop ⟨bs⟩ i r = r.reverse ++ bs.toList.drop i := by
  induction n generalizing i r with
  | zero =>
    have hi : ¬ i < (⟨bs⟩ : ByteArray).size := by
      change ¬ i < bs.size
      omega
    rw [ByteArray.toList.loop, if_neg hi, List.drop_of_length_le (by simp; omega)]
    simp
  | succ n ih =>
    rw [ByteArray.toList.loop]
    by_cases hi : i < bs.size
    · have hget : (⟨bs⟩ : ByteArray).get! i = bs[i] := by
        change bs[i]! = bs[i]
        exact getElem!_pos bs i hi
      have hi' : i < (⟨bs⟩ : ByteArray).size := hi
      rw [if_pos hi', ih _ _ (by omega), hget,
        List.drop_eq_getElem_cons (i := i) (l := bs.toList) (by simpa using hi)]
      simp
    · have hi' : ¬ i < (⟨bs⟩ : ByteArray).size := hi
      rw [if_neg hi', List.drop_of_length_le (by simp; omega)]
      simp

theorem toList_eq_data (b : ByteArray) : b.toList = b.data.toList := by
  obtain ⟨bs⟩ := b
  rw [ByteArray.toList, toList_loop_eq bs bs.size 0 [] (by omega)]
  simp

namespace Stored

variable {α β : Type}

/-- A form that a reader takes a value from, whatever follows, if the value is small. -/
structure Form (reader : Reader α) (bs : Bytes) (a : α) (small : Prop) : Prop where
  read : small → ∀ t, reader (bs ++ t) = .ok (a, t)
  refuse : ¬ small → ∀ t, ∃ fault, reader (bs ++ t) = .error fault

namespace Form

theorem pure (a : α) : Form (Pure.pure a : Reader α) [] a True where
  read _ _ := rfl
  refuse h := absurd trivial h

theorem bind {reader : Reader α} {f : α → Reader β} {bs bs' : Bytes} {a : α} {b : β}
    {small small' : Prop} (h : Form reader bs a small) (h' : Form (f a) bs' b small') :
    Form (reader >>= f) (bs ++ bs') b (small ∧ small') where
  read hs t := by
    rw [List.append_assoc]
    simp only [Bind.bind, StateT.bind, h.read hs.1, Except.bind]
    exact h'.read hs.2 t
  refuse hs t := by
    rw [List.append_assoc]
    by_cases hsm : small
    · obtain ⟨fault, hf⟩ := h'.refuse (fun h => hs ⟨hsm, h⟩) t
      exact ⟨fault, by simp only [Bind.bind, StateT.bind, h.read hsm, Except.bind, hf]⟩
    · obtain ⟨fault, hf⟩ := h.refuse hsm (bs' ++ t)
      exact ⟨fault, by simp only [Bind.bind, StateT.bind, hf, Except.bind]⟩

theorem map {reader : Reader α} {f : α → β} {bs : Bytes} {a : α} {b : β} {small : Prop}
    (h : Form reader bs a small) (hb : f a = b) :
    Form (reader >>= fun a => Pure.pure (f a)) bs b small := by
  have := h.bind (f := fun a => Pure.pure (f a)) (Form.pure (f a))
  simpa only [List.append_nil, and_true, hb] using this

theorem of_iff {reader : Reader α} {bs : Bytes} {a : α} {p p' : Prop}
    (h : Form reader bs a p) (hs : p ↔ p') : Form reader bs a p' :=
  propext hs ▸ h

end Form

theorem form_number (n : Nat) : Form number (writeNumber n) n (n < 2 ^ 64) where
  read h t := by
    simp only [number, writeNumber, Base128.read_encode_append h]
    rw [← Base128.length_encode, List.drop_left]
  refuse h t := by
    simp [number, writeNumber, Base128.read_of_large (Nat.le_of_not_lt h)]

theorem form_take (bs : Bytes) : Form (take bs.length) bs bs True where
  read _ t := by simp [take]
  refuse h := absurd trivial h

theorem fromUTF8?_toUTF8 (s : String) :
    String.fromUTF8? s.toUTF8.toList.toByteArray = some s := by
  have hb : s.toUTF8.toList.toByteArray = s.toUTF8 := by
    rw [toList_eq_data]
    ext1
    simp
  rw [hb, String.fromUTF8?, dif_pos (c := s.toUTF8.IsValidUTF8) s.isValidUTF8]
  rfl

theorem length_toUTF8 (s : String) : s.toUTF8.toList.length = s.utf8ByteSize := by
  rw [toList_eq_data]
  rfl

theorem form_text (s : String) : Form text (writeText s) s (s.utf8ByteSize < 2 ^ 64) := by
  have : Form text (writeNumber s.toUTF8.toList.length ++ (s.toUTF8.toList ++ [])) s
      (s.toUTF8.toList.length < 2 ^ 64 ∧ True ∧ True) := by
    refine (form_number _).bind ((form_take _).bind ?_)
    simp only [fromUTF8?_toUTF8]
    exact Form.pure s
  simp only [List.append_nil, and_true, length_toUTF8] at this
  rw [writeText, length_toUTF8]
  exact this

end Stored

def BufferState.Small (b : BufferState) : Prop :=
  b.start < 2 ^ 64 ∧ b.pos < 2 ^ 64 ∧ b.capacity < 2 ^ 64 ∧ b.records < 2 ^ 64 ∧
    b.file.utf8ByteSize < 2 ^ 64

def Chunk.Small (c : Chunk) : Prop :=
  c.file.utf8ByteSize < 2 ^ 64 ∧ c.start < 2 ^ 64 ∧ c.size < 2 ^ 64 ∧ c.diskSize < 2 ^ 64 ∧
    c.records < 2 ^ 64

def Stats.Small (s : Stats) : Prop := s.maxKey < 2 ^ 64 ∧ s.maxValue < 2 ^ 64

instance (b : BufferState) : Decidable b.Small := inferInstanceAs (Decidable (_ ∧ _))

instance (c : Chunk) : Decidable c.Small := inferInstanceAs (Decidable (_ ∧ _))

instance (s : Stats) : Decidable s.Small := inferInstanceAs (Decidable (_ ∧ _))

namespace Stored

variable {α : Type}

theorem form_buffer (b : BufferState) : Form buffer (ofBuffer b) b b.Small := by
  have hs : b.salt.toNat < 2 ^ 64 := b.salt.toNat_lt
  simp only [ofBuffer, List.append_assoc]
  refine Form.of_iff (p := b.start < 2 ^ 64 ∧ b.pos < 2 ^ 64 ∧ b.capacity < 2 ^ 64 ∧
    b.records < 2 ^ 64 ∧ b.file.utf8ByteSize < 2 ^ 64 ∧ b.salt.toNat < 2 ^ 64) ?_ ?_
  · refine (form_number _).bind ?_
    refine (form_number _).bind ?_
    refine (form_number _).bind ?_
    refine (form_number _).bind ?_
    refine (form_text _).bind ?_
    exact (form_number _).map (by simp)
  · simp only [BufferState.Small, hs, and_true]

theorem form_chunk (c : Chunk) : Form chunk (ofChunk c) c c.Small := by
  simp only [ofChunk, List.append_assoc]
  refine (form_text _).bind ?_
  refine (form_number _).bind ?_
  refine (form_number _).bind ?_
  refine (form_number _).bind ?_
  exact (form_number _).map rfl

theorem form_stats (s : Stats) : Form stats (ofStats s) s s.Small := by
  refine (form_number _).bind ?_
  exact (form_number _).map rfl

theorem Form.decode_eq {reader : Reader α} {bs : Bytes} {a : α} {small : Prop}
    (h : Form reader bs a small) (hs : small) : decode reader bs = .ok a := by
  have := h.read hs []
  rw [List.append_nil] at this
  simp only [decode, this]

/-- No form is taken for another value. -/
theorem Form.eq_of_decode {reader : Reader α} {bs : Bytes} {a a' : α} {small : Prop}
    (h : Form reader bs a small) (hd : decode reader bs = .ok a') : a' = a := by
  by_cases hs : small
  · rw [h.decode_eq hs] at hd
    exact (Except.ok.inj hd).symm
  · obtain ⟨fault, hf⟩ := h.refuse hs []
    rw [List.append_nil] at hf
    simp [decode, hf] at hd

end Stored

end RecordLog
