import Mathlib
import RecordLog.Proofs.StoredValues

/-!
# A stored value that was cut short

A value takes all the bytes of its form: a reader that is given only the front of it finds that the
input ends, wherever it was cut, and takes no other value from it. `Whole` says so of a reader, and
like `Form` it goes through the fields one by one.
-/

namespace RecordLog.Stored

variable {α β : Type}

/-- A form of which a reader needs the last byte. -/
def Whole (reader : Reader α) (bs : Bytes) : Prop :=
  ∀ d, d <+: bs → d ≠ bs → reader d = .error .ended

namespace Whole

theorem nil (reader : Reader α) : Whole reader [] := fun _ hd hne =>
  absurd (List.prefix_nil.1 hd) hne

theorem bind {reader : Reader α} {f : α → Reader β} {bs bs' : Bytes} {a : α} {small : Prop}
    (h : Form reader bs a small) (hs : small) (hw : Whole reader bs) (hw' : Whole (f a) bs') :
    Whole (reader >>= f) (bs ++ bs') := by
  intro d hd hne
  by_cases hfront : bs <+: d
  · obtain ⟨e, rfl⟩ := hfront
    have hrest := hw' e ((List.prefix_append_right_inj bs).1 hd) fun he => hne (he ▸ rfl)
    simp only [Bind.bind, StateT.bind, h.read hs, Except.bind, hrest]
  · have hcut : d <+: bs :=
      (List.prefix_or_prefix_of_prefix hd (List.prefix_append bs bs')).resolve_right hfront
    have hshort := hw d hcut fun he => hfront (he ▸ List.prefix_rfl)
    simp only [Bind.bind, StateT.bind, hshort, Except.bind]

theorem map {reader : Reader α} {f : α → β} {bs : Bytes} {a : α} {small : Prop}
    (h : Form reader bs a small) (hs : small) (hw : Whole reader bs) :
    Whole (reader >>= fun a => Pure.pure (f a)) bs := by
  have := bind (f := fun a => Pure.pure (f a)) h hs hw (nil _)
  rwa [List.append_nil] at this

end Whole

theorem length_lt_of_strict_prefix {d bs : Bytes} (hd : d <+: bs) (hne : d ≠ bs) :
    d.length < bs.length :=
  Nat.lt_of_le_of_ne hd.length_le fun h => hne (hd.eq_of_length h)

theorem whole_number {n : Nat} (h : n < 2 ^ 64) : Whole number (writeNumber n) := by
  intro d hd hne
  have hlt := length_lt_of_strict_prefix hd hne
  rw [writeNumber, Base128.length_encode] at hlt
  have hshort : Base128.read d = .short := by
    rw [List.prefix_iff_eq_take.1 hd]
    exact Base128.read_take_encode h hlt
  simp only [number, hshort]

theorem whole_take (bs : Bytes) : Whole (take bs.length) bs := by
  intro d hd hne
  have hlt := length_lt_of_strict_prefix hd hne
  rw [take, List.take_of_length_le (Nat.le_of_lt hlt)]
  exact if_pos hlt

theorem whole_text {s : String} (h : s.utf8ByteSize < 2 ^ 64) : Whole text (writeText s) := by
  have hlen : s.toUTF8.toList.length < 2 ^ 64 := by rwa [length_toUTF8]
  have : Whole text (writeNumber s.toUTF8.toList.length ++ (s.toUTF8.toList ++ [])) :=
    .bind (form_number _) hlen (whole_number hlen)
      (.bind (form_take _) trivial (whole_take _) (.nil _))
  rwa [List.append_nil] at this

theorem whole_buffer {b : BufferState} (h : b.Small) : Whole buffer (ofBuffer b) := by
  have hsalt : b.salt.toNat < 2 ^ 64 := b.salt.toNat_lt
  obtain ⟨hstart, hpos, hcapacity, hrecords, hfile⟩ := h
  simp only [ofBuffer, List.append_assoc]
  refine .bind (form_number _) hstart (whole_number hstart) ?_
  refine .bind (form_number _) hpos (whole_number hpos) ?_
  refine .bind (form_number _) hcapacity (whole_number hcapacity) ?_
  refine .bind (form_number _) hrecords (whole_number hrecords) ?_
  refine .bind (form_text _) hfile (whole_text hfile) ?_
  exact .map (form_number _) hsalt (whole_number hsalt)

theorem whole_chunk {c : Chunk} (h : c.Small) : Whole chunk (ofChunk c) := by
  obtain ⟨hfile, hstart, hsize, hdiskSize, hrecords⟩ := h
  simp only [ofChunk, List.append_assoc]
  refine .bind (form_text _) hfile (whole_text hfile) ?_
  refine .bind (form_number _) hstart (whole_number hstart) ?_
  refine .bind (form_number _) hsize (whole_number hsize) ?_
  refine .bind (form_number _) hdiskSize (whole_number hdiskSize) ?_
  exact .map (form_number _) hrecords (whole_number hrecords)

theorem whole_stats {s : Stats} (h : s.Small) : Whole stats (ofStats s) :=
  .bind (form_number _) h.1 (whole_number h.1) (.map (form_number _) h.2 (whole_number h.2))

/-- A form that stands for one value: it is read back whatever follows it, and whatever is missing
of it, the input has ended. -/
structure Exact (reader : Reader α) (bs : Bytes) (a : α) : Prop where
  read : ∀ t, decode reader (bs ++ t) = .ok a
  cut : ∀ d, d <+: bs → d ≠ bs → decode reader d = .error (.deserialization Fault.ended.message)

theorem Form.exact {reader : Reader α} {bs : Bytes} {a : α} {small : Prop}
    (h : Form reader bs a small) (hs : small) (hw : Whole reader bs) : Exact reader bs a where
  read t := by simp only [decode, h.read hs]
  cut d hd hne := by simp only [decode, hw d hd hne]

/-- Each kind of stored value is read back whatever follows it, and of a form that was cut short
nothing is read. -/
theorem exact_of_small {b : BufferState} {c : Chunk} {s : Stats} (hb : b.Small) (hc : c.Small)
    (hs : s.Small) :
    Exact buffer (ofBuffer b) b ∧ Exact chunk (ofChunk c) c ∧ Exact stats (ofStats s) s :=
  ⟨(form_buffer b).exact hb (whole_buffer hb), (form_chunk c).exact hc (whole_chunk hc),
    (form_stats s).exact hs (whole_stats hs)⟩

/-- Numbers of all ten bytes, and names whose letters take several. -/
theorem exact_of_largest :
    let b : BufferState := ⟨2 ^ 64 - 1, 300, 2 ^ 63, 128, "größe", 2 ^ 64 - 1⟩
    let c : Chunk := ⟨"Übung.chunk", 2 ^ 64 - 1, 16384, 0, 127⟩
    let s : Stats := ⟨2 ^ 32, 2 ^ 64 - 1⟩
    b.Small ∧ c.Small ∧ s.Small ∧
      Exact buffer (ofBuffer b) b ∧ Exact chunk (ofChunk c) c ∧ Exact stats (ofStats s) s := by
  intro b c s
  have hb : b.Small := by decide
  have hc : c.Small := by decide
  have hs : s.Small := by decide
  exact ⟨hb, hc, hs, exact_of_small hb hc hs⟩

end RecordLog.Stored
