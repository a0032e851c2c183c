import Mathlib
import RecordLog.Proofs.Records

/-!
# Live bytes, piece by piece

The file of a live segment is written in pieces, each encoded at its own offset. `Written` says so
of a byte string. Pieces can be put behind it, cut off its end and taken together, and from the
start of any piece on it decodes in one go to all that follows.
-/

namespace RecordLog

/-- Decoding goes from byte to byte, so what stands in front decodes without what follows. -/
def Cipher.Sequential (c : Cipher) : Prop :=
  ∀ id offset x x' z, c.decodeAt id offset (x ++ x') = .ok z →
    c.decodeAt id offset x = .ok (z.take x.length)

theorem Cipher.sequential_identity : Cipher.identity.Sequential := by
  rintro _ _ x x' _ ⟨⟩
  rw [List.take_left]
  rfl

variable {c : Cipher} {id : SegmentId}

theorem Cipher.Sequential.decodeAt_nil (hs : c.Sequential) {offset : Nat} {x z : Bytes}
    (h : c.decodeAt id offset x = .ok z) : c.decodeAt id offset [] = .ok [] :=
  hs id offset [] x z h

/-- A byte string that pieces of plain bytes were encoded to, the first one at an offset. -/
def Written (c : Cipher) (id : SegmentId) : (offset : Nat) → (pieces : List Bytes) → Bytes → Prop
  | _, [], bs => bs = []
  | offset, x :: xs, bs => ∃ y rest, bs = y ++ rest ∧ y.length = x.length ∧
      c.decodeAt id offset y = .ok x ∧ Written c id (offset + x.length) xs rest

namespace Written

theorem length_eq {offset : Nat} {xs : List Bytes} {bs : Bytes} (h : Written c id offset xs bs) :
    bs.length = xs.flatten.length := by
  induction xs generalizing offset bs with
  | nil => simp [show bs = [] from h]
  | cons x xs ih =>
    obtain ⟨y, rest, rfl, hy, -, hr⟩ := h
    simp [hy, ih hr]

theorem append_iff {offset : Nat} {xs ys : List Bytes} {bs : Bytes} :
    Written c id offset (xs ++ ys) bs ↔ ∃ b₁ b₂, bs = b₁ ++ b₂ ∧ Written c id offset xs b₁ ∧
      Written c id (offset + xs.flatten.length) ys b₂ := by
  induction xs generalizing offset bs with
  | nil => simp [Written]
  | cons x xs ih =>
    simp only [List.cons_append, Written, ih, List.flatten_cons, List.length_append]
    constructor
    · rintro ⟨y, _, rfl, hy, hd, b₁, b₂, rfl, h₁, h₂⟩
      exact ⟨y ++ b₁, b₂, by simp, ⟨y, b₁, rfl, hy, hd, h₁⟩, by rwa [← Nat.add_assoc]⟩
    · rintro ⟨_, b₂, rfl, ⟨y, b₁, rfl, hy, hd, h₁⟩, h₂⟩
      exact ⟨y, b₁ ++ b₂, by simp, hy, hd, b₁, b₂, rfl, h₁, by rwa [Nat.add_assoc]⟩

theorem singleton_iff {offset : Nat} {x bs : Bytes} :
    Written c id offset [x] bs ↔ bs.length = x.length ∧ c.decodeAt id offset bs = .ok x := by
  simp [Written]

theorem snoc (hc : c.Lawful) {offset : Nat} {xs : List Bytes} {bs x y : Bytes}
    (h : Written c id offset xs bs)
    (he : c.encodeAt id (offset + xs.flatten.length) x = .ok y) :
    Written c id offset (xs ++ [x]) (bs ++ y) :=
  append_iff.2 ⟨bs, y, rfl, h,
    singleton_iff.2 ⟨hc.length_encodeAt _ _ _ _ he, hc.decodeAt_encodeAt _ _ _ _ he⟩⟩

theorem take {offset : Nat} {xs ys : List Bytes} {bs : Bytes}
    (h : Written c id offset (xs ++ ys) bs) :
    Written c id offset xs (bs.take xs.flatten.length) := by
  obtain ⟨b₁, b₂, rfl, h₁, -⟩ := append_iff.1 h
  rwa [← h₁.length_eq, List.take_left]

theorem drop {offset : Nat} {xs ys : List Bytes} {bs : Bytes}
    (h : Written c id offset (xs ++ ys) bs) :
    Written c id (offset + xs.flatten.length) ys (bs.drop xs.flatten.length) := by
  obtain ⟨b₁, b₂, rfl, h₁, h₂⟩ := append_iff.1 h
  rwa [← h₁.length_eq, List.drop_left, h₁.length_eq]

/-- From the start of a piece on the bytes decode to the pieces that follow. -/
theorem decodeAt_eq (hc : c.Lawful) {offset : Nat} {xs : List Bytes} {bs : Bytes}
    (h : Written c id offset xs bs) (hne : xs ≠ []) :
    c.decodeAt id offset bs = .ok xs.flatten := by
  induction xs generalizing offset bs with
  | nil => exact absurd rfl hne
  | cons x xs ih =>
    obtain ⟨y, rest, rfl, hy, hd, hr⟩ := h
    by_cases hxs : xs = []
    · subst hxs
      have : rest = [] := hr
      simpa [this] using hd
    · rw [← hy] at hr
      simpa using hc.decodeAt_append _ _ _ _ _ _ hd (ih hr hxs)

/-- However many of the bytes are there, they decode to as many of the pieces. -/
theorem decodeAt_take (hc : c.Lawful) (hs : c.Sequential) {offset : Nat} {xs : List Bytes}
    {bs : Bytes} (h : Written c id offset xs bs) (hne : xs ≠ []) (n : Nat) :
    c.decodeAt id offset (bs.take n) = .ok (xs.flatten.take n) := by
  have hwhole := h.decodeAt_eq hc hne
  rw [← List.take_append_drop n bs] at hwhole
  rw [hs _ _ _ _ _ hwhole, List.length_take, h.length_eq, ← List.take_take, List.take_length]

theorem encodeAt_eq (hc : c.Lawful) {offset : Nat} {xs : List Bytes} {bs : Bytes}
    (h : Written c id offset xs bs) (hne : xs ≠ []) :
    c.encodeAt id offset xs.flatten = .ok bs :=
  hc.encodeAt_decodeAt _ _ _ _ (h.decodeAt_eq hc hne)

theorem merge (hc : c.Lawful) {offset : Nat} {xs : List Bytes} {x y bs : Bytes}
    (h : Written c id offset (xs ++ [x, y]) bs) :
    Written c id offset (xs ++ [x ++ y]) bs := by
  obtain ⟨b₁, b₂, rfl, h₁, h₂⟩ := append_iff.1 h
  refine append_iff.2 ⟨b₁, b₂, rfl, h₁, singleton_iff.2 ⟨?_, ?_⟩⟩
  · simpa using h₂.length_eq
  · simpa using h₂.decodeAt_eq hc (List.cons_ne_nil _ _)

end Written

end RecordLog
