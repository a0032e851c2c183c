import Mathlib
import RecordLog.Proofs.Numbers

/-!
# Which bytes are numbers

Bytes with the high bit set go on, and the first one without it ends a number. `Base128.Front` lists
what an input can begin with, and reading finds exactly that. No number has a form shorter than the
one it is written in. On words of 64 bits the folding is a shift and an exclusive or, both ways.
-/

namespace RecordLog

namespace Base128

/-- What bytes stand for: the lowest seven bits of each, those of the first byte lowest. -/
def value (bs : Bytes) : Nat := Nat.ofDigits 128 (bs.map fun b => b.toNat % 128)

def Continues (bs : Bytes) : Prop := ∀ b ∈ bs, 128 ≤ b

instance (bs : Bytes) : Decidable (Continues bs) := inferInstanceAs (Decidable (∀ b ∈ bs, _))

/-- What an input begins with, if a number has so many places and one more that holds a single
bit. -/
inductive Front (places : Nat) : Bytes → Reading Nat → Prop where
  | value {pre rest : Bytes} {last : UInt8} (hpre : Continues pre) (hlast : last < 128)
      (hle : pre.length ≤ places) (htop : pre.length = places → last ≤ 1) :
      Front places (pre ++ last :: rest) (.value (value (pre ++ [last])) (pre.length + 1))
  | short {bs : Bytes} (hbs : Continues bs) (hle : bs.length ≤ places) : Front places bs .short
  | overlong {pre rest : Bytes} {b : UInt8} (hpre : Continues pre) (heq : pre.length = places)
      (hb : 1 < b) : Front places (pre ++ b :: rest) .overlong

variable {places n k : Nat} {bs : Bytes} {r : Reading Nat}

theorem continues_nil : Continues [] := fun _ hb => by cases hb

@[simp] theorem value_nil : value [] = 0 := rfl

@[simp] theorem value_cons (b : UInt8) (bs : Bytes) :
    value (b :: bs) = b.toNat % 128 + 128 * value bs := by
  simp [value, Nat.ofDigits_cons]

theorem value_append (bs bs' : Bytes) :
    value (bs ++ bs') = value bs + 128 ^ bs.length * value bs' := by
  simp [value, Nat.ofDigits_append]

theorem value_singleton {b : UInt8} (h : b < 128) : value [b] = b.toNat := by
  have : b.toNat < 128 := h
  rw [value_cons, value_nil]
  omega

theorem value_lt (bs : Bytes) : value bs < 128 ^ bs.length := by
  induction bs with
  | nil => simp
  | cons b bs ih =>
    rw [value_cons, List.length_cons, Nat.pow_succ]
    omega

theorem readWithin_append {pre : Bytes} (h : Continues pre) (places : Nat) (rest : Bytes) :
    readWithin (pre.length + places + 1) (pre ++ rest) =
      match readWithin (places + 1) rest with
      | .value v used => .value (value pre + 128 ^ pre.length * v) (pre.length + used)
      | .short => .short
      | .overlong => .overlong := by
  induction pre with
  | nil => cases hr : readWithin (places + 1) rest <;> simp [hr]
  | cons b pre ih =>
    obtain ⟨hb, hpre⟩ := List.forall_mem_cons.1 h
    have hb' : 128 ≤ b.toNat := hb
    have hlt := b.toNat_lt
    have hplaces : pre.length + 1 + places + 1 - 1 = pre.length + places + 1 := by omega
    rw [List.cons_append, readWithin, if_neg (by simp), if_neg (UInt8.not_lt.2 hb),
      List.length_cons, hplaces, ih hpre]
    cases readWithin (places + 1) rest with
    | value v used =>
      have hvalue : b.toNat - 128 + 128 * (value pre + 128 ^ pre.length * v) =
          value (b :: pre) + 128 ^ (pre.length + 1) * v := by
        rw [value_cons, Nat.pow_succ, Nat.mul_comm (128 ^ _) 128, Nat.mul_assoc]
        omega
      have hused : pre.length + used + 1 = pre.length + 1 + used := by omega
      simp only [hvalue, hused]
    | short => rfl
    | overlong => rfl

/-- What an input begins with is what a reader finds. -/
theorem Front.readWithin_eq (h : Front places bs r) : readWithin (places + 1) bs = r := by
  cases h with
  | @value pre rest last hpre hlast hle htop =>
    obtain ⟨i, rfl⟩ := Nat.exists_eq_add_of_le hle
    have htop' : ¬ (i + 1 ≤ 1 ∧ 1 < last) := by
      rintro ⟨hi, h1⟩
      exact UInt8.not_le.2 h1 (htop (by omega))
    rw [readWithin_append hpre, readWithin, if_neg htop', if_pos hlast]
    dsimp only
    rw [value_append, value_singleton hlast]
  | short hbs hle =>
    obtain ⟨i, rfl⟩ := Nat.exists_eq_add_of_le hle
    have := readWithin_append hbs i []
    rw [List.append_nil] at this
    rw [this, readWithin]
  | @overlong pre rest b hpre heq hb =>
    subst heq
    have hread := readWithin_append hpre 0 (b :: rest)
    rw [Nat.add_zero] at hread
    rw [hread, readWithin, if_pos ⟨Nat.le_refl _, hb⟩]

theorem Front.cons {b : UInt8} (hb : 128 ≤ b) :
    Front places bs r → Front (places + 1) (b :: bs) (match r with
      | .value v used => .value (b.toNat - 128 + 128 * v) (used + 1)
      | other => other) := by
  intro h
  have hgo {pre : Bytes} (hpre : Continues pre) : Continues (b :: pre) :=
    List.forall_mem_cons.2 ⟨hb, hpre⟩
  cases h with
  | @value pre rest last hpre hlast hle htop =>
    have hb' : 128 ≤ b.toNat := hb
    have hlt := b.toNat_lt
    have hvalue : b.toNat - 128 + 128 * Base128.value (pre ++ [last]) =
        Base128.value (b :: pre ++ [last]) := by
      rw [List.cons_append, value_cons]
      omega
    dsimp only
    rw [hvalue]
    exact .value (show Continues (b :: pre) from hgo hpre) hlast (Nat.succ_le_succ hle)
      fun heq => htop (Nat.succ.inj heq)
  | short hbs hle => exact .short (hgo hbs) (Nat.succ_le_succ hle)
  | @overlong pre rest b' hpre heq hb' =>
    exact .overlong (show Continues (b :: pre) from hgo hpre) (congrArg Nat.succ heq) hb'

theorem front_readWithin (places : Nat) (bs : Bytes) :
    Front places bs (readWithin (places + 1) bs) := by
  induction bs generalizing places with
  | nil => exact .short (by simp [Continues]) (Nat.zero_le _)
  | cons b bs ih =>
    rw [readWithin]
    split
    · rename_i h
      exact .overlong continues_nil (by simp; omega) h.2
    rename_i htop
    split
    · rename_i hlast
      have hread : Front places ([] ++ b :: bs) (.value (value ([] ++ [b])) 1) :=
        .value continues_nil hlast (Nat.zero_le _) fun heq =>
          UInt8.not_lt.1 fun h1 => htop ⟨by simp at heq; omega, h1⟩
      rwa [List.nil_append, List.nil_append, value_singleton hlast] at hread
    · rename_i hlast
      have hb : 128 ≤ b := UInt8.not_lt.1 hlast
      have h1 : (1 : UInt8) < b := lt_of_lt_of_le (show 1 < 128 by decide) hb
      obtain ⟨places, rfl⟩ := Nat.exists_eq_succ_of_ne_zero
        (show places ≠ 0 from fun h0 => htop ⟨by omega, h1⟩)
      exact (ih places).cons hb

theorem readWithin_eq_iff : readWithin (places + 1) bs = r ↔ Front places bs r :=
  ⟨fun h => h ▸ front_readWithin places bs, Front.readWithin_eq⟩

theorem read_eq_short_iff : read bs = .short ↔ bs.length < 10 ∧ Continues bs := by
  refine readWithin_eq_iff.trans ⟨fun h => ?_, fun ⟨hlt, hbs⟩ => .short hbs (Nat.le_of_lt_succ hlt)⟩
  cases h with
  | short hbs hle => exact ⟨Nat.lt_succ_of_le hle, hbs⟩

theorem read_eq_overlong_iff :
    read bs = .overlong ↔
      ∃ pre b rest, bs = pre ++ b :: rest ∧ pre.length = 9 ∧ Continues pre ∧ 1 < b := by
  refine readWithin_eq_iff.trans ⟨fun h => ?_, ?_⟩
  · cases h with
    | @overlong pre rest b hpre heq hb => exact ⟨pre, b, rest, rfl, heq, hpre, hb⟩
  · rintro ⟨pre, b, rest, rfl, heq, hpre, hb⟩
    exact .overlong hpre heq hb

theorem Front.value_lt {used : Nat} (h : Front places bs (.value n used)) :
    n < 2 * 128 ^ places := by
  cases h with
  | @value pre rest last hpre hlast hle htop =>
    have hbound := Base128.value_lt pre
    rw [value_append, value_singleton hlast]
    rcases Nat.lt_or_eq_of_le hle with hlt | heq
    · have hpow : 128 ^ (pre.length + 1) ≤ 128 ^ places := Nat.pow_le_pow_right (by decide) hlt
      have hmul : 128 ^ pre.length * last.toNat ≤ 128 ^ pre.length * 127 :=
        Nat.mul_le_mul_left _ (Nat.le_of_lt_succ hlast)
      rw [Nat.pow_succ] at hpow
      omega
    · have hmul : 128 ^ pre.length * last.toNat ≤ 128 ^ pre.length * 1 :=
        Nat.mul_le_mul_left _ (htop heq)
      rw [← heq]
      omega

theorem size_le_iff : size n ≤ k + 1 ↔ n < 128 ^ (k + 1) := by
  induction k generalizing n with
  | zero =>
    have := size_pos (n / 128)
    rw [size]
    split <;> omega
  | succ k ih =>
    have hdiv := ih (n := n / 128)
    have hpos : 0 < 128 ^ k := Nat.pow_pos (by decide)
    rw [size, Nat.pow_succ]
    split <;> omega

theorem size_le_of_read {d : Bytes} {used : Nat} (h : read d = .value n used) :
    size n ≤ d.length := by
  cases readWithin_eq_iff.1 h with
  | @value pre rest last hpre hlast hle htop =>
    have hlt := value_lt (pre ++ [last])
    rw [List.length_append, List.length_singleton] at hlt
    have := size_le_iff.2 hlt
    simp only [List.length_append, List.length_cons]
    omega

theorem value_encode (h : n < 2 ^ 64) : value (encode n) = n := by
  have hread := read_encode_append h []
  rw [List.append_nil] at hread
  have hlen := length_encode n
  generalize encode n = bs at hread hlen
  generalize size n = used at hread hlen
  cases readWithin_eq_iff.1 hread with
  | @value pre rest last hpre hlast hle htop =>
    obtain rfl : rest = [] := by
      rw [List.length_append, List.length_cons] at hlen
      exact List.length_eq_zero_iff.1 (by omega)
    rfl

end Base128

namespace Varint

/-- The folding on words of 64 bits: the sign becomes the lowest bit. -/
def foldWord (v : Int64) : UInt64 := ((v <<< 1) ^^^ (v >>> 63)).toUInt64

def unfoldWord (z : UInt64) : Int64 := ((z >>> 1) ^^^ (0 - (z &&& 1))).toInt64

theorem sshiftRight_sign (x : BitVec 64) :
    x.sshiftRight 63 = if x.msb then BitVec.allOnes 64 else 0#64 := by
  have hzero {y : BitVec 64} (hy : y.msb = false) : y >>> 63 = 0#64 := by
    have hlt := BitVec.msb_eq_false_iff_two_mul_lt.1 hy
    apply BitVec.eq_of_toNat_eq
    rw [BitVec.toNat_ushiftRight, Nat.shiftRight_eq_div_pow]
    exact Nat.div_eq_of_lt (by omega)
  cases hm : x.msb with
  | false =>
    rw [BitVec.sshiftRight_eq_of_msb_false hm, hzero hm]
    rfl
  | true =>
    rw [BitVec.sshiftRight_eq_of_msb_true hm, hzero (by simp [hm]), BitVec.not_zero]
    rfl

theorem zigzag_toInt (v : Int64) : zigzag v.toInt = (foldWord v).toNat := by
  have hfold : (foldWord v).toNat =
      ((v.toBitVec <<< 1) ^^^ v.toBitVec.sshiftRight 63).toNat := rfl
  have hv : v.toInt = v.toBitVec.toInt := rfl
  rw [hfold, hv, sshiftRight_sign]
  generalize v.toBitVec = x
  have hlt := x.isLt
  cases hm : x.msb with
  | false =>
    have := BitVec.msb_eq_false_iff_two_mul_lt.1 hm
    rw [if_neg Bool.false_ne_true, BitVec.xor_zero, BitVec.toInt_eq_toNat_of_msb hm,
      BitVec.toNat_shiftLeft, Nat.shiftLeft_eq]
    change 2 * x.toNat = _
    omega
  | true =>
    have := BitVec.msb_eq_true_iff_two_mul_ge.1 hm
    have hneg : (x.toNat : Int) - (2 ^ 64 : Nat) = .negSucc (2 ^ 64 - 1 - x.toNat) := by omega
    rw [if_pos rfl, BitVec.xor_allOnes, BitVec.toNat_not, BitVec.toNat_shiftLeft,
      Nat.shiftLeft_eq, BitVec.toInt_eq_toNat_cond, if_neg (by omega), hneg, zigzag]
    omega

theorem toInt_unfoldWord (z : UInt64) : (unfoldWord z).toInt = unzigzag z.toNat := by
  have hunfold : (unfoldWord z).toInt =
      ((z.toBitVec >>> 1) ^^^ (0#64 - (z.toBitVec &&& 1#64))).toInt := rfl
  have hz : z.toNat = z.toBitVec.toNat := rfl
  rw [hunfold, hz]
  generalize z.toBitVec = x
  have hlt := x.isLt
  have hbit : (x &&& 1#64).toNat = x.toNat % 2 := by simp
  have hhalf : (x >>> 1).toNat = x.toNat / 2 := by
    rw [BitVec.toNat_ushiftRight, Nat.shiftRight_eq_div_pow]
  unfold unzigzag
  split
  · rename_i heven
    have hand : x &&& 1#64 = 0#64 := BitVec.eq_of_toNat_eq (hbit.trans heven)
    rw [hand, BitVec.sub_zero, BitVec.xor_zero, BitVec.toInt_eq_toNat_cond, hhalf,
      if_pos (by omega)]
    rfl
  · rename_i hodd
    have hand : x &&& 1#64 = 1#64 := BitVec.eq_of_toNat_eq (hbit.trans (by simp; omega))
    rw [hand, BitVec.zero_sub, BitVec.neg_one_eq_allOnes, BitVec.xor_allOnes,
      BitVec.toInt_eq_toNat_cond, BitVec.toNat_not, hhalf, if_neg (by omega)]
    omega

theorem zigzag_toInt_lt (v : Int64) : zigzag v.toInt < 2 ^ 64 :=
  zigzag_toInt v ▸ (foldWord v).toNat_lt

open Base128

theorem exists_of_read_eq_value {v : Int} {d : Bytes} {used : Nat} (h : read d = .value v used) :
    ∃ n, Base128.read d = .value n used ∧ v = unzigzag n := by
  unfold read at h
  cases hr : Base128.read d with
  | value n used' =>
    rw [hr] at h
    obtain ⟨rfl, rfl⟩ := Reading.value.inj h
    exact ⟨n, rfl, rfl⟩
  | short => simp [hr, Reading.map] at h
  | overlong => simp [hr, Reading.map] at h

theorem size_le_of_read {v : Int} {d : Bytes} {used : Nat} (h : read d = .value v used) :
    size v ≤ d.length := by
  obtain ⟨n, hr, rfl⟩ := exists_of_read_eq_value h
  rw [size, zigzag_unzigzag]
  exact Base128.size_le_of_read hr

theorem read_eq_short_iff {d : Bytes} : read d = .short ↔ Base128.read d = .short := by
  unfold read
  cases Base128.read d <;> simp [Reading.map]

theorem read_eq_overlong_iff {d : Bytes} : read d = .overlong ↔ Base128.read d = .overlong := by
  unfold read
  cases Base128.read d <;> simp [Reading.map]

theorem exists_of_read {v : Int} {d : Bytes} {used : Nat} (h : read d = .value v used) :
    ∃ pre last rest, d = pre ++ last :: rest ∧ Continues pre ∧ last < 128 ∧
      value (pre ++ [last]) < 2 ^ 64 ∧ v = (unfoldWord (.ofNat (value (pre ++ [last])))).toInt ∧
      used = pre.length + 1 := by
  obtain ⟨n, hr, rfl⟩ := exists_of_read_eq_value h
  have hfront := readWithin_eq_iff.1 hr
  have hlt := hfront.value_lt
  cases hfront with
  | @value pre rest last hpre hlast hle htop =>
    have hword : (UInt64.ofNat (value (pre ++ [last]))).toNat = value (pre ++ [last]) :=
      UInt64.toNat_ofNat_of_lt hlt
    exact ⟨pre, last, rest, rfl, hpre, hlast, hlt, by rw [toInt_unfoldWord, hword], rfl⟩

/-- A signed number of 64 bits is read back whatever follows it, from as many bytes as it has and
from no fewer. Any other input ends within a number, or has none, or begins with one that its bytes
stand for. -/
theorem read_exact (v : Int64) (t d : Bytes) :
    (read (encode v.toInt ++ t) = .value v.toInt (encode v.toInt).length ∧
      (encode v.toInt).length = size v.toInt ∧ 1 ≤ size v.toInt ∧ size v.toInt ≤ 10 ∧
      value (encode v.toInt) = (foldWord v).toNat ∧
      ¬ ∃ (d' : Bytes) (used : Nat), d'.length < size v.toInt ∧ read d' = .value v.toInt used) ∧
    (read d = .short ↔ d.length < 10 ∧ Continues d) ∧
    (read d = .overlong ↔ ∃ pre b rest, d = pre ++ b :: rest ∧ pre.length = 9 ∧ Continues pre ∧
      1 < b) ∧
    (read d = .short ∨ read d = .overlong ∨
      ∃ pre last rest, d = pre ++ last :: rest ∧ Continues pre ∧ last < 128 ∧
        value (pre ++ [last]) < 2 ^ 64 ∧
        read d = .value (unfoldWord (.ofNat (value (pre ++ [last])))).toInt (pre.length + 1)) := by
  have hlt := zigzag_toInt_lt v
  have hmax : zigzag v.toInt < 128 ^ (9 + 1) := hlt.trans (by decide)
  refine ⟨⟨?_, length_encode _, size_pos _, size_le_iff.2 hmax, ?_, ?_⟩, ?_, ?_, ?_⟩
  · rw [length_encode]
    exact read_encode_append hlt t
  · rw [← zigzag_toInt]
    exact value_encode hlt
  · rintro ⟨d', used, hshort, hread⟩
    exact Nat.not_lt.2 (size_le_of_read hread) hshort
  · exact read_eq_short_iff.trans Base128.read_eq_short_iff
  · exact read_eq_overlong_iff.trans Base128.read_eq_overlong_iff
  · cases hr : read d with
    | short => exact .inl rfl
    | overlong => exact .inr (.inl rfl)
    | value u used =>
      obtain ⟨pre, last, rest, hd, hpre, hlast, hvalue, rfl, rfl⟩ := exists_of_read hr
      exact .inr (.inr ⟨pre, last, rest, hd, hpre, hlast, hvalue, rfl⟩)

/-- The lowest number takes all ten places, and another byte in the last one is refused. -/
example : read (List.replicate 9 255 ++ [1]) = .value Int64.minValue.toInt 10 ∧
    read (List.replicate 9 255 ++ [2]) = .overlong ∧ read (List.replicate 9 255) = .short := by
  decide

end Varint

end RecordLog
