import Mathlib
import RecordLog.Proofs.StreamReach

/-!
# What a sealed segment decrypts from

A sealed segment is a nonce, encrypted bytes and a tag, and the tag is computed from what stands in
front of it. So a byte string decrypts to a content just if it is what that content is encrypted to
under the nonce in front, and all others are refused. With the laws of live bytes this makes the
cipher one that a log can rely on.
-/

namespace RecordLog

namespace ChaCha.Sealed

variable {key : Key} {nonce encrypted data d p t : Bytes}

def refusal (d : Bytes) : Error :=
  .transform (if d.length < nonceSize then "data too short for nonce" else "decrypt: aead::Error")

@[simp] theorem length_tag (s : Stream) (encrypted : Bytes) :
    (tag s encrypted).length = tagSize := Poly1305.length_tag _ _

theorem length_encode (key : Key) (nonce data : Bytes) :
    (encode key nonce data).length = nonce.length + (data.length + tagSize) := by
  simp [encode]

theorem exists_parts (h : nonceSize + tagSize ≤ d.length) :
    ∃ nonce encrypted t, d = nonce ++ (encrypted ++ t) ∧ nonce.length = nonceSize ∧
      t.length = tagSize := by
  refine ⟨d.take nonceSize, (d.drop nonceSize).take (d.length - nonceSize - tagSize),
    (d.drop nonceSize).drop (d.length - nonceSize - tagSize), ?_, ?_, ?_⟩
  · rw [List.take_append_drop, List.take_append_drop]
  · exact List.length_take_of_le (Nat.le_trans (Nat.le_add_right _ _) h)
  · rw [List.length_drop, List.length_drop]
    omega

theorem decode_of_short (h : d.length < nonceSize + tagSize) :
    decode key d = .error (refusal d) := by
  unfold decode refusal
  split
  · rfl
  · have hbody : (d.drop nonceSize).length < tagSize := by
      rw [List.length_drop]
      omega
    rw [if_pos (.inl hbody)]

theorem decode_parts (hn : nonce.length = nonceSize) (ht : t.length = tagSize) :
    decode key (nonce ++ (encrypted ++ t)) =
      if encrypted.length / 64 < maxBlocks ∧ tag (stream key nonce) encrypted = t then
        .ok ((stream key nonce).apply 64 encrypted)
      else .error (refusal (nonce ++ (encrypted ++ t))) := by
  have hbody : (encrypted ++ t).length - tagSize = encrypted.length := by
    rw [List.length_append]
    omega
  have htag : ¬ (encrypted ++ t).length < tagSize := by
    rw [List.length_append]
    omega
  simp only [decode, refusal, ← hn, List.take_left, List.drop_left, hbody, htag, false_or]
  by_cases hsize : encrypted.length / 64 < maxBlocks
  · simp [hsize, Nat.not_le.2 hsize]
  · simp [hsize, Nat.le_of_not_lt hsize]

/-- What is encrypted decrypts to itself if it is within the size that there is for messages. -/
theorem decode_encode (hn : nonce.length = nonceSize) (hp : p.length / 64 < maxBlocks) :
    decode key (encode key nonce p) = .ok p := by
  rw [encode, List.append_assoc, decode_parts hn (length_tag _ _), Stream.length_apply,
    if_pos ⟨hp, rfl⟩, Stream.apply_apply]

/-- What decrypts was encrypted to the whole string. -/
theorem eq_encode_of_decode (h : decode key d = .ok p) :
    d = encode key (d.take nonceSize) p ∧ nonceSize ≤ d.length ∧ p.length / 64 < maxBlocks := by
  by_cases hlen : d.length < nonceSize + tagSize
  · rw [decode_of_short hlen] at h
    cases h
  obtain ⟨nonce, encrypted, t, rfl, hn, ht⟩ := exists_parts (Nat.le_of_not_lt hlen)
  rw [decode_parts hn ht] at h
  split at h
  · rename_i hgood
    obtain ⟨hsize, rfl⟩ := hgood
    obtain rfl := Except.ok.inj h
    refine ⟨?_, by rw [List.length_append]; omega, by rwa [Stream.length_apply]⟩
    rw [← hn, List.take_left, encode, Stream.apply_apply, List.append_assoc]
  · cases h

theorem eq_refusal_of_decode {e : Error} (h : decode key d = .error e) : e = refusal d := by
  by_cases hlen : d.length < nonceSize + tagSize
  · rw [decode_of_short hlen] at h
    exact (Except.error.inj h).symm
  obtain ⟨nonce, encrypted, t, rfl, hn, ht⟩ := exists_parts (Nat.le_of_not_lt hlen)
  rw [decode_parts hn ht] at h
  split at h
  · cases h
  · exact (Except.error.inj h).symm

end ChaCha.Sealed

namespace Cipher

open ChaCha ChaCha.Sealed

variable {key : Key} {nonce : Nonce} {d p : Bytes}

theorem encode_chacha_eq_ok_iff :
    (chacha key).encode nonce p = .ok d ↔
      p.length / 64 < maxBlocks ∧ d = Sealed.encode key nonce.bytes p := by
  simp only [chacha]
  split
  · rename_i h
    simp [Nat.not_lt.2 h]
  · rename_i h
    simp [Nat.lt_of_not_le h, eq_comm]

theorem lawful_chacha (key : Key) : (chacha key).Lawful where
  decode_encode := by
    intro nonce x y h
    obtain ⟨hx, rfl⟩ := encode_chacha_eq_ok_iff.1 h
    exact Sealed.decode_encode nonce.length_bytes hx
  length_encodeAt _ _ _ _ := Live.length_of_apply
  length_decodeAt _ _ _ _ := Live.length_of_apply
  decodeAt_encodeAt _ _ _ _ := Live.apply_of_apply
  encodeAt_decodeAt _ _ _ _ := Live.apply_of_apply
  decodeAt_append _ _ _ _ _ _ := Live.apply_append

/-- A string decrypts to a content just if the content was encrypted to it with the nonce in front,
which makes it 28 bytes longer. Every content of a size that there is for messages can be encrypted
with every nonce, and decrypts again. Strings that nothing was encrypted to are refused. -/
theorem decode_chacha_exact (key : Key) (nonce : Nonce) (d p : Bytes) :
    ((chacha key).decode d = .ok p ↔
      ∃ front : Nonce, front.bytes = d.take nonceSize ∧ d.length = p.length + 28 ∧
        (chacha key).encode front p = .ok d) ∧
    (64 * maxBlocks ≤ p.length ∨ ∃ y, (chacha key).encode nonce p = .ok y ∧
      (chacha key).decode y = .ok p) ∧
    ((chacha key).decode d = .error (refusal d) ↔
      ¬ ∃ front p, (chacha key).encode front p = .ok d) := by
  refine ⟨⟨fun h => ?_, ?_⟩, ?_, fun h => ?_, fun h => ?_⟩
  · obtain ⟨hd, hlen, hp⟩ := eq_encode_of_decode h
    have hnonce : (d.take nonceSize).length = nonceSize := List.length_take_of_le hlen
    refine ⟨⟨d.take nonceSize, hnonce⟩, rfl, ?_, encode_chacha_eq_ok_iff.2 ⟨hp, hd⟩⟩
    rw [hd, length_encode, hnonce, nonceSize, tagSize]
    omega
  · rintro ⟨front, -, -, h⟩
    exact (lawful_chacha key).decode_encode front p d h
  · rcases Nat.lt_or_ge p.length (64 * maxBlocks) with hp | hp
    · have hy : (chacha key).encode nonce p = .ok _ :=
        encode_chacha_eq_ok_iff.2 ⟨Nat.div_lt_of_lt_mul hp, rfl⟩
      exact .inr ⟨_, hy, (lawful_chacha key).decode_encode nonce p _ hy⟩
    · exact .inl hp
  · rintro ⟨front, p, hd⟩
    have hok := (lawful_chacha key).decode_encode front p d hd
    rw [h] at hok
    cases hok
  · cases hx : (chacha key).decode d with
    | ok p =>
      obtain ⟨hd, hlen, hp⟩ := eq_encode_of_decode hx
      exact absurd ⟨⟨d.take nonceSize, List.length_take_of_le hlen⟩, p,
        encode_chacha_eq_ok_iff.2 ⟨hp, hd⟩⟩ h
    | error e => exact congrArg _ (eq_refusal_of_decode hx)

end Cipher

end RecordLog
