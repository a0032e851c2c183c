import Mathlib
import RecordLog.Proofs.Sequences

/-!
# Compressing and decompressing

A match is only taken after its bytes were compared, so copying them rebuilds the content, whatever
the table proposed, and also where the match overlaps what it copies. Sequences found from some
position on rebuild the rest of the content, and so a content that was compressed decompresses to
itself.
-/

namespace RecordLog

namespace Lz4

def Agree (x : Array UInt8) (i j count : Nat) : Prop :=
  ∀ k < count, x.getD (i + k) 0 = x.getD (j + k) 0

variable {x : Array UInt8} {i j covered : Nat}

theorem Agree.append {count count' : Nat} (h : Agree x i j count)
    (h' : Agree x (i + count) (j + count) count') : Agree x i j (count + count') := by
  intro k hk
  by_cases hlt : k < count
  · exact h k hlt
  · have := h' (k - count) (by omega)
    rwa [Nat.add_assoc, Nat.add_assoc, Nat.add_sub_cancel' (Nat.le_of_not_lt hlt)] at this

theorem agree_commonRun (x : Array UInt8) (i j limit : Nat) :
    Agree x i j (commonRun x i j limit) := by
  induction limit generalizing i j with
  | zero => exact fun k hk => absurd hk (Nat.not_lt_zero k)
  | succ limit ih =>
    rw [commonRun]
    split
    · rename_i heq
      have hone : Agree x i j 1 := fun k hk => by
        obtain rfl : k = 0 := by omega
        exact heq
      rw [Nat.add_comm]
      exact hone.append (ih (i + 1) (j + 1))
    · exact fun k hk => absurd hk (Nat.not_lt_zero k)

theorem commonRunBack_le (x : Array UInt8) (i j limit : Nat) :
    commonRunBack x i j limit ≤ limit := by
  induction limit generalizing i j with
  | zero => exact Nat.le_refl _
  | succ limit ih =>
    rw [commonRunBack]
    split
    · exact Nat.succ_le_succ (ih _ _)
    · exact Nat.zero_le _

theorem agree_commonRunBack {limit : Nat} (hi : limit ≤ i) (hj : limit ≤ j) :
    Agree x (i - commonRunBack x i j limit) (j - commonRunBack x i j limit)
      (commonRunBack x i j limit) := by
  induction limit generalizing i j with
  | zero => exact fun k hk => absurd hk (Nat.not_lt_zero k)
  | succ limit ih =>
    rw [commonRunBack]
    split
    · rename_i heq
      have hback := ih (i := i - 1) (j := j - 1) (by omega) (by omega)
      have hle := commonRunBack_le x (i - 1) (j - 1) limit
      have hone : Agree x (i - 1) (j - 1) 1 := fun k hk => by
        obtain rfl : k = 0 := by omega
        exact heq
      have hstart : ∀ p, limit + 1 ≤ p → p - 1 - commonRunBack x (i - 1) (j - 1) limit =
          p - (commonRunBack x (i - 1) (j - 1) limit + 1) := fun p hp => by omega
      have hstop : ∀ p, limit + 1 ≤ p → p - (commonRunBack x (i - 1) (j - 1) limit + 1) +
          commonRunBack x (i - 1) (j - 1) limit = p - 1 := fun p hp => by omega
      rw [hstart i hi, hstart j hj] at hback
      refine hback.append ?_
      rwa [hstop i hi, hstop j hj]
    · exact fun k hk => absurd hk (Nat.not_lt_zero k)

/-- A match that may stand in a block. -/
structure Match.Sound (x : Array UInt8) (covered : Nat) (m : Match) (length : Nat) : Prop where
  covered_le : covered ≤ m.here
  there_lt : m.there < m.here
  offset_le : m.here - m.there ≤ maxOffset
  length_le : minMatch ≤ length
  agree : Agree x m.here m.there length

theorem Match.sound_extend {m : Match} (h : usable x m.here m.there = true)
    (hc : covered ≤ m.here) :
    (m.extend x covered).1.Sound x covered (m.extend x covered).2 := by
  simp only [usable, Bool.and_eq_true, decide_eq_true_eq] at h
  obtain ⟨⟨hlt, hoff⟩, hrun⟩ := h
  have hmiddle := agree_commonRun x m.here m.there minMatch
  rw [hrun] at hmiddle
  have hle := commonRunBack_le x m.here m.there (min (m.here - covered) m.there)
  have hleft : min (m.here - covered) m.there ≤ m.here := by omega
  have hback := agree_commonRunBack (x := x) hleft (Nat.min_le_right (m.here - covered) m.there)
  have hahead := agree_commonRun x (m.here + minMatch) (m.there + minMatch)
    (x.size - (m.here + minMatch + endMargin))
  simp only [Match.extend]
  generalize commonRunBack x m.here m.there (min (m.here - covered) m.there) = back at hle hback ⊢
  generalize commonRun x (m.here + minMatch) (m.there + minMatch)
    (x.size - (m.here + minMatch + endMargin)) = ahead at hahead ⊢
  have hhere : m.here - back + back = m.here := by omega
  have hthere : m.there - back + back = m.there := by omega
  refine ⟨by dsimp only; omega, by dsimp only; omega, by dsimp only; omega, by omega, ?_⟩
  dsimp only
  refine Agree.append (hback.append ?_) ?_
  · rwa [hhere, hthere]
  · rwa [← Nat.add_assoc, ← Nat.add_assoc, hhere, hthere]

theorem usable_of_search {seen seen' : Seen} {misses : Nat} {m : Match}
    (h : search x seen i misses = (some m, seen')) : usable x m.here m.there = true := by
  fun_induction search x seen i misses with
  | case1 => simp at h
  | case2 =>
    rename_i hu
    obtain rfl := Option.some.inj (Prod.mk.inj h).1
    exact hu
  | case3 _ _ _ _ _ _ _ ih => exact ih h

/-- Sequences and literals that rebuild a content from some position on. -/
inductive Rebuilds (x : Array UInt8) : Nat → List Sequence → Bytes → Prop where
  | last (covered : Nat) : Rebuilds x covered [] (slice x covered x.size)
  | cons {covered length : Nat} {m : Match} {seqs : List Sequence} {last : Bytes}
      (hm : m.Sound x covered length) (hstop : m.here + length ≤ x.size)
      (hrest : Rebuilds x (m.here + length) seqs last) :
      Rebuilds x covered (⟨slice x covered m.here, m.here - m.there, length⟩ :: seqs) last

/-- What is found rebuilds what is not covered yet. -/
theorem rebuilds_sequences (seen : Seen) (acc : Array Sequence) (h : covered ≤ i) :
    ∃ found last, sequences x seen covered i acc = (acc.toList ++ found, last) ∧
      Rebuilds x covered found last := by
  fun_induction sequences x seen covered i acc with
  | case1 => exact ⟨[], _, by rw [List.append_nil], .last _⟩
  | case2 seen covered i acc m seen' hs found length hextend stop hstop hle ih =>
    obtain ⟨more, last, hmore, hrest⟩ := ih (Nat.le_refl _)
    have hm := Match.sound_extend (usable_of_search hs) (Nat.le_trans h hle.1)
    rw [hextend] at hm
    refine ⟨_, last, ?_, .cons hm hstop.2 hrest⟩
    rw [hmore, Array.toList_push, List.append_assoc, List.singleton_append]
  | case3 => exact ⟨[], _, by rw [List.append_nil], .last _⟩

theorem copyMatch_extract {offset count : Nat} (hpos : 0 < offset) (hle : offset ≤ i)
    (hstop : i + count ≤ x.size) (h : Agree x i (i - offset) count) :
    copyMatch (x.extract 0 i) offset count = x.extract 0 (i + count) := by
  induction count generalizing i with
  | zero => rfl
  | succ count ih =>
    have hsize : (x.extract 0 i).size = i := by
      rw [Array.size_extract]
      omega
    have hi : i < x.size := by omega
    have hbyte : (x.extract 0 i).getD (i - offset) 0 = x.getD i 0 := by
      have hlt : i - offset < (x.extract 0 i).size := by omega
      have h0 := h 0 (Nat.succ_pos count)
      rw [Nat.add_zero, Nat.add_zero] at h0
      rw [h0]
      rw [Array.getD_eq_getD_getElem?, Array.getD_eq_getD_getElem?, Array.getElem?_extract,
        if_pos (by omega), Nat.zero_add]
    have hpush : (x.extract 0 i).push (x.getD i 0) = x.extract 0 (i + 1) := by
      rw [Array.getD_eq_getD_getElem?, Array.getElem?_eq_getElem hi, Option.getD_some,
        Array.push_extract_getElem, Nat.min_eq_left (Nat.zero_le _)]
    have hnext : Agree x (i + 1) (i + 1 - offset) count := fun k hk => by
      have := h (k + 1) (by omega)
      have h1 : i + (k + 1) = i + 1 + k := by omega
      have h2 : i - offset + (k + 1) = i + 1 - offset + k := by omega
      rwa [h1, h2] at this
    rw [copyMatch, hsize, hbyte, hpush, ih (by omega) (by omega) hnext, Nat.add_assoc,
      Nat.add_comm 1]

theorem extract_append_slice {h : Nat} (hle : covered ≤ h) :
    x.extract 0 covered ++ slice x covered h = x.extract 0 h := by
  refine Array.toList_inj.1 ?_
  rw [Array.toList_appendList, slice, ← Array.toList_append, Array.extract_append_extract,
    Nat.min_eq_left (Nat.zero_le _), Nat.max_eq_right hle]

theorem Rebuilds.decodeBlock_eq {seqs : List Sequence} {last : Bytes}
    (h : Rebuilds x covered seqs last) (hc : covered ≤ x.size) :
    decodeBlock x.size (x.extract 0 covered) (seqs.flatMap Sequence.encode ++ encodeLast last) =
      .ok x := by
  induction h with
  | last covered =>
    have hsize : (x.extract 0 covered).size + (slice x covered x.size).length ≤ x.size := by
      rw [slice, Array.length_toList, Array.size_extract, Array.size_extract]
      omega
    rw [List.flatMap_nil, List.nil_append, decodeBlock_encodeLast hsize, extract_append_slice hc,
      Array.extract_size]
  | @cons covered length m seqs last hm hstop hrest ih =>
    have hpre : (x.extract 0 covered).size = covered := by
      rw [Array.size_extract]
      omega
    have hlit : (slice x covered m.here).length = m.here - covered := by
      rw [slice, Array.length_toList, Array.size_extract]
      omega
    have hcov := hm.covered_le
    have hthere := hm.there_lt
    have hoff := hm.offset_le
    have hback : m.here - m.there ≤
        (x.extract 0 covered).size + (slice x covered m.here).length := by
      rw [hpre, hlit]
      omega
    have hroom :
        (x.extract 0 covered).size + (slice x covered m.here).length + length ≤ x.size := by
      rw [hpre, hlit]
      omega
    have hfits : Sequence.Fits ⟨slice x covered m.here, m.here - m.there, length⟩
        (x.extract 0 covered).size :=
      ⟨Nat.sub_pos_of_lt hthere, hback, Nat.lt_succ_of_le hoff, hm.length_le⟩
    have hextend : Sequence.extend ⟨slice x covered m.here, m.here - m.there, length⟩
        (x.extract 0 covered) = x.extract 0 (m.here + length) := by
      rw [Sequence.extend, extract_append_slice hcov]
      refine copyMatch_extract (Nat.sub_pos_of_lt hthere) (Nat.sub_le _ _) hstop ?_
      rw [Nat.sub_sub_self (Nat.le_of_lt hthere)]
      exact hm.agree
    rw [List.flatMap_cons, List.append_assoc, decodeBlock_encode_append hfits hroom, hextend]
    exact ih hstop

theorem exists_encode_eq (bs : Bytes) :
    ∃ seqs last, encode bs = encodeBlock bs.length seqs last ∧ Rebuilds bs.toArray 0 seqs last := by
  rw [encode]
  split
  · have hlast := Rebuilds.last (x := bs.toArray) 0
    rw [slice, Array.extract_size] at hlast
    exact ⟨[], bs, rfl, hlast⟩
  · obtain ⟨found, last, hfound, hr⟩ := rebuilds_sequences (x := bs.toArray) (i := 1)
      (Seen.empty.note bs.toArray 0) #[] (Nat.zero_le 1)
    exact ⟨found, last, by rw [hfound]; rfl, hr⟩

theorem decode_encode {bs : Bytes} (h : bs.length < 2 ^ 32) : decode (encode bs) = .ok bs := by
  obtain ⟨seqs, last, heq, hr⟩ := exists_encode_eq bs
  have hblock := hr.decodeBlock_eq (Nat.zero_le _)
  rw [Array.extract_zero] at hblock
  rw [heq]
  exact decode_encodeBlock h hblock

end Lz4

namespace Compressor

theorem decode_lz4_eq_ok_iff {d data : Bytes} :
    lz4.decode d = .ok data ↔ Lz4.decode d = .ok data := by
  simp only [lz4]
  cases Lz4.decode d <;> simp [Except.mapError]

theorem exists_of_decode_lz4 {d : Bytes} {e : Error} (h : lz4.decode d = .error e) :
    ∃ fault : Lz4.Fault, e = .transform s!"lz4 decompress: {fault.message}" := by
  simp only [lz4] at h
  cases hx : Lz4.decode d with
  | error fault => exact ⟨fault, by simpa [hx, Except.mapError, eq_comm] using h⟩
  | ok data => simp [hx, Except.mapError] at h

/-- Every content whose length four bytes can tell is compressed to a block with that length in
front, which decompresses to it. Of any other string, too, no more comes out than its first four
bytes say, or it is refused. -/
theorem lz4_restores {x : Bytes} (h : x.length < 2 ^ 32) (d : Bytes) :
    (∃ y seqs last, lz4.encode x = .ok y ∧ y = Lz4.encodeBlock x.length seqs last ∧
      y.take 4 = Bytes.ofNat 4 x.length ∧ lz4.decode y = .ok x) ∧
    ((∃ text, lz4.decode d = .error (.transform text)) ∨
      ∃ data, lz4.decode d = .ok data ∧ data.length ≤ Bytes.toNat (d.take 4)) := by
  refine ⟨?_, ?_⟩
  · obtain ⟨seqs, last, heq, -⟩ := Lz4.exists_encode_eq x
    refine ⟨Lz4.encode x, seqs, last, rfl, heq, ?_, decode_lz4_eq_ok_iff.2 (Lz4.decode_encode h)⟩
    rw [heq, Lz4.take_encodeBlock]
  · cases hx : lz4.decode d with
    | error e =>
      obtain ⟨fault, rfl⟩ := exists_of_decode_lz4 hx
      exact .inl ⟨_, rfl⟩
    | ok data => exact .inr ⟨data, rfl, Lz4.length_decode_le (decode_lz4_eq_ok_iff.1 hx)⟩

/-- Equal bytes become one literal and a match that overlaps what it copies; a block that says less
than its size is no error. -/
theorem lz4_restores_overlapping :
    let x : Bytes := List.replicate 33 7
    x.length < 2 ^ 32 ∧
      lz4.encode x = .ok [33, 0, 0, 0, 31, 7, 1, 0, 7, 96, 7, 7, 7, 7, 7, 7] ∧
      lz4.decode [33, 0, 0, 0, 31, 7, 1, 0, 7, 96, 7, 7, 7, 7, 7, 7] = .ok x ∧
      ∃ data, lz4.decode [5, 0, 0, 0, 16, 65] = .ok data ∧ data.length ≤ 5 := by
  intro x
  have hx : x.length < 2 ^ 32 := by decide
  have hencode : lz4.encode x = .ok [33, 0, 0, 0, 31, 7, 1, 0, 7, 96, 7, 7, 7, 7, 7, 7] := by
    decide +kernel
  obtain ⟨⟨y, -, -, hy, -, -, hdecode⟩, hd⟩ := lz4_restores hx [5, 0, 0, 0, 16, 65]
  obtain rfl := Except.ok.inj (hencode.symm.trans hy)
  refine ⟨hx, hencode, hdecode, ?_⟩
  rcases hd with ⟨text, hd⟩ | ⟨data, hd, hle⟩
  · have hok : lz4.decode [5, 0, 0, 0, 16, 65] = .ok [65] := by decide +kernel
    rw [hok] at hd
    cases hd
  · exact ⟨data, hd, hle⟩

end Compressor

end RecordLog
