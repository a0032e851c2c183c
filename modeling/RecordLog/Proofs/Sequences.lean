import Mathlib
import RecordLog.Lz4
import RecordLog.Proofs.Numbers

/-!
# What a block decodes to

A sequence that was encoded is decoded behind any content, whatever follows it, if its distance
stays within the content and there is room. Whatever a block is made of, no more comes out of it
than there is room for.
-/

namespace RecordLog

namespace Lz4

variable {capacity n : Nat} {out out' : Array UInt8} {rest : Bytes}

theorem token_div (literals extra : Nat) : (token literals extra).toNat / 16 = min literals 15 := by
  rw [token, Nat.toUInt8_eq, UInt8.toNat_ofNat']
  omega

theorem token_mod (literals extra : Nat) : (token literals extra).toNat % 16 = min extra 15 := by
  rw [token, Nat.toUInt8_eq, UInt8.toNat_ofNat']
  omega

theorem readTail_replicate {last : Nat} (h : last < 255) (k : Nat) (rest : Bytes) :
    readTail (List.replicate k 255 ++ last.toUInt8 :: rest) = .ok (last + 255 * k, rest) := by
  induction k with
  | zero =>
    have hnat : last.toUInt8.toNat = last := by
      rw [Nat.toUInt8_eq, UInt8.toNat_ofNat']
      omega
    have hne : last.toUInt8 ≠ 255 := fun heq => by
      rw [heq] at hnat
      have : (255 : UInt8).toNat = 255 := rfl
      omega
    rw [List.replicate_zero, List.nil_append, readTail, if_neg hne, hnat]
    rfl
  | succ k ih =>
    rw [List.replicate_succ, List.cons_append, readTail, if_pos rfl, ih, Except.map]
    simp only [Nat.mul_succ, Nat.add_assoc]

theorem readLength_lengthTail (n : Nat) (rest : Bytes) :
    readLength (min n 15) (lengthTail n ++ rest) = .ok (n, rest) := by
  unfold readLength lengthTail
  by_cases h : n < 15
  · rw [if_pos (by omega), if_pos h, List.nil_append, Nat.min_eq_left (Nat.le_of_lt h)]
  · have hsum : (n - 15) % 255 + 255 * ((n - 15) / 255) + 15 = n := by
      rw [Nat.mod_add_div]
      omega
    rw [if_neg (by omega), if_neg h, List.append_assoc, List.singleton_append,
      readTail_replicate (Nat.mod_lt _ (by decide)), Except.map]
    simp only [hsum]

theorem size_append (out : Array UInt8) (literals : Bytes) :
    (out ++ literals).size = out.size + literals.length := by
  rw [← Array.length_toList, Array.toList_appendList, List.length_append, Array.length_toList]

theorem takeLiterals_append {literals : Bytes} (h : out.size + literals.length ≤ capacity)
    (rest : Bytes) :
    takeLiterals capacity out literals.length (literals ++ rest) = .ok (out ++ literals, rest) := by
  simp only [takeLiterals, List.take_left, List.drop_left, Nat.lt_irrefl, if_false]
  rw [if_neg (Nat.not_lt.2 h)]

theorem decodeBlock_of_sequence {count extra : Nat} {t lo hi : UInt8}
    {bs afterLength afterOffset rest : Bytes}
    (hl : readLength (t.toNat / 16) bs = .ok (count, afterLength))
    (ht : takeLiterals capacity out count afterLength = .ok (out', lo :: hi :: afterOffset))
    (hpos : lo.toNat + 256 * hi.toNat ≠ 0) (hback : lo.toNat + 256 * hi.toNat ≤ out'.size)
    (hm : readLength (t.toNat % 16) afterOffset = .ok (extra, rest))
    (hroom : out'.size + (extra + minMatch) ≤ capacity) :
    decodeBlock capacity out (t :: bs) =
      decodeBlock capacity (copyMatch out' (lo.toNat + 256 * hi.toNat) (extra + minMatch))
        rest := by
  rw [decodeBlock]
  split <;> rename_i h <;> rw [hl] at h <;> cases h
  split <;> rename_i h <;> rw [ht] at h <;> cases h
  dsimp only
  rw [if_neg hpos]
  split <;> rename_i h <;> rw [hm] at h <;> cases h
  rw [if_neg (Nat.not_lt.2 hroom), if_neg (Nat.not_lt.2 hback)]

theorem decodeBlock_encodeLast {last : Bytes} (h : out.size + last.length ≤ capacity) :
    decodeBlock capacity out (encodeLast last) = .ok (out ++ last) := by
  have hl := readLength_lengthTail last.length last
  rw [← token_div last.length 0] at hl
  have ht := takeLiterals_append h []
  rw [List.append_nil] at ht
  rw [encodeLast, decodeBlock]
  split <;> rename_i h <;> rw [hl] at h <;> cases h
  split <;> rename_i h <;> rw [ht] at h <;> cases h
  rfl

/-- What a sequence asks of the content that it is decoded behind. -/
structure Sequence.Fits (s : Sequence) (size : Nat) : Prop where
  offset_pos : 0 < s.offset
  offset_le : s.offset ≤ size + s.literals.length
  offset_lt : s.offset < 65536
  length_le : minMatch ≤ s.matchLength

def Sequence.extend (s : Sequence) (out : Array UInt8) : Array UInt8 :=
  copyMatch (out ++ s.literals) s.offset s.matchLength

theorem decodeBlock_encode_append {s : Sequence} (hs : s.Fits out.size)
    (hroom : out.size + s.literals.length + s.matchLength ≤ capacity) (rest : Bytes) :
    decodeBlock capacity out (s.encode ++ rest) = decodeBlock capacity (s.extend out) rest := by
  have hmatch : s.matchLength - minMatch + minMatch = s.matchLength :=
    Nat.sub_add_cancel hs.length_le
  have hoffset : s.offset.toUInt8.toNat + 256 * (s.offset / 256).toUInt8.toNat = s.offset := by
    have hlt := hs.offset_lt
    rw [Nat.toUInt8_eq, Nat.toUInt8_eq, UInt8.toNat_ofNat', UInt8.toNat_ofNat']
    omega
  have hsize := size_append out s.literals
  have hl := readLength_lengthTail s.literals.length
    (s.literals ++ (Bytes.ofNat 2 s.offset ++ (lengthTail (s.matchLength - minMatch) ++ rest)))
  have hliterals : out.size + s.literals.length ≤ capacity := by omega
  have ht := takeLiterals_append hliterals
    (Bytes.ofNat 2 s.offset ++ (lengthTail (s.matchLength - minMatch) ++ rest))
  have hm := readLength_lengthTail (s.matchLength - minMatch) rest
  rw [← token_div s.literals.length (s.matchLength - minMatch)] at hl
  rw [← token_mod s.literals.length (s.matchLength - minMatch)] at hm
  have hpos := hs.offset_pos
  have hle := hs.offset_le
  have hdecode := decodeBlock_of_sequence hl ht (by omega) (by omega) hm (by omega)
  rw [hoffset, hmatch] at hdecode
  rw [Sequence.extend, ← hdecode, Sequence.encode]
  simp only [List.cons_append, List.append_assoc]

theorem size_of_takeLiterals {count : Nat} {bs : Bytes}
    (h : takeLiterals capacity out count bs = .ok (out', rest)) : out'.size ≤ capacity := by
  simp only [takeLiterals] at h
  split at h
  · cases h
  rename_i hlen
  split at h
  · cases h
  · obtain ⟨rfl, -⟩ := Prod.mk.inj (Except.ok.inj h)
    have hle := List.length_take_le count bs
    rw [size_append]
    omega

/-- No block decodes to more than there is room for. -/
theorem size_decodeBlock_le {bs : Bytes} (h : decodeBlock capacity out bs = .ok out') :
    out'.size ≤ capacity := by
  fun_induction decodeBlock capacity out bs with
  | case1 => cases h
  | case2 => cases h
  | case3 => cases h
  | case4 =>
    rename_i ht
    obtain rfl := Except.ok.inj h
    exact size_of_takeLiterals ht
  | case5 => cases h
  | case6 => cases h
  | case7 => cases h
  | case8 => cases h
  | case9 => cases h
  | case10 => rename_i ih; exact ih h

theorem length_decode_le {bs data : Bytes} (h : decode bs = .ok data) :
    data.length ≤ Bytes.toNat (bs.take 4) := by
  unfold decode at h
  split at h
  · cases h
  · obtain ⟨out, hout, rfl⟩ : ∃ out,
        decodeBlock (Bytes.toNat (bs.take 4)) #[] (bs.drop 4) = .ok out ∧ out.toList = data := by
      cases hx : decodeBlock (Bytes.toNat (bs.take 4)) #[] (bs.drop 4) with
      | error e => simp [hx, Except.map] at h
      | ok out => exact ⟨out, rfl, by simpa [hx, Except.map] using h⟩
    exact size_decodeBlock_le hout

theorem take_encodeBlock (size : Nat) (sequences : List Sequence) (last : Bytes) :
    (encodeBlock size sequences last).take 4 = Bytes.ofNat 4 size := by
  rw [encodeBlock, List.append_assoc, List.take_left' (Bytes.length_ofNat 4 size)]

theorem decode_encodeBlock {size : Nat} {sequences : List Sequence} {last : Bytes}
    (hsize : size < 2 ^ 32)
    (h : decodeBlock size #[] (sequences.flatMap Sequence.encode ++ encodeLast last) = .ok out) :
    decode (encodeBlock size sequences last) = .ok out.toList := by
  have hback : (encodeBlock size sequences last).drop 4 =
      sequences.flatMap Sequence.encode ++ encodeLast last := by
    rw [encodeBlock, List.append_assoc, List.drop_left' (Bytes.length_ofNat 4 size)]
  have hlen : ¬ (encodeBlock size sequences last).length < 4 := by
    simp [encodeBlock]
  rw [decode, if_neg hlen, take_encodeBlock, hback, Bytes.toNat_ofNat hsize, h, Except.map]

end Lz4

end RecordLog
