import RecordLog.Bytes
import RecordLog.Error

/-!
# Transforms

A log transforms its bytes in two ways. When a segment is sealed, its whole content goes through a
compressor and then a cipher. While a segment is live, each piece written to its file goes through
the cipher at the piece's offset, keeping its length, so that any range can be read back alone.

A cipher takes the nonce of a whole-segment encoding as an argument: whoever calls it draws one.
-/

namespace RecordLog

/-- Names the key stream of one live file: where its segment starts and the salt it was given. -/
structure SegmentId where
  start : Nat
  salt : UInt64
  deriving Repr, DecidableEq, Inhabited

/-- Twelve bytes meant to be used once. -/
structure Nonce where
  bytes : Bytes
  length_bytes : bytes.length = 12
  deriving DecidableEq

namespace Nonce

def ofNat (n : Nat) : Nonce := ⟨Bytes.ofNat 12 n, Bytes.length_ofNat 12 n⟩

end Nonce

structure Compressor where
  name : String
  encode : Bytes → Except Error Bytes
  decode : Bytes → Except Error Bytes

structure Cipher where
  name : String
  encode : Nonce → Bytes → Except Error Bytes
  decode : Bytes → Except Error Bytes
  /-- Encodes bytes that lie at an offset of a live file. -/
  encodeAt : SegmentId → (offset : Nat) → Bytes → Except Error Bytes
  decodeAt : SegmentId → (offset : Nat) → Bytes → Except Error Bytes

/-- A cipher as a transform of whole segments, with the same nonce for all of them. -/
def Cipher.withNonce (c : Cipher) (nonce : Nonce) : Compressor where
  name := c.name
  encode := c.encode nonce
  decode := c.decode

/-- What sealing relies on: what was encoded decodes to what it was. -/
def Compressor.Lawful (c : Compressor) : Prop :=
  ∀ x y, c.encode x = .ok y → c.decode y = .ok x

/-- What a log relies on: whole segments decode to what they were, and live bytes keep their
length, can be written in pieces, and read back from any offset. -/
structure Cipher.Lawful (c : Cipher) : Prop where
  decode_encode : ∀ nonce x y, c.encode nonce x = .ok y → c.decode y = .ok x
  length_encodeAt : ∀ id offset x y, c.encodeAt id offset x = .ok y → y.length = x.length
  length_decodeAt : ∀ id offset x y, c.decodeAt id offset x = .ok y → y.length = x.length
  decodeAt_encodeAt : ∀ id offset x y, c.encodeAt id offset x = .ok y →
    c.decodeAt id offset y = .ok x
  encodeAt_decodeAt : ∀ id offset x y, c.decodeAt id offset x = .ok y →
    c.encodeAt id offset y = .ok x
  decodeAt_append : ∀ id offset x x' y y', c.decodeAt id offset x = .ok y →
    c.decodeAt id (offset + x.length) x' = .ok y' →
    c.decodeAt id offset (x ++ x') = .ok (y ++ y')

def Compressor.identity : Compressor where
  name := "Identity"
  encode := .ok
  decode := .ok

def Cipher.identity : Cipher where
  name := "Identity"
  encode _ := .ok
  decode := .ok
  encodeAt _ _ := .ok
  decodeAt _ _ := .ok

theorem Compressor.lawful_identity : Compressor.identity.Lawful := by
  intro x y h
  cases h
  rfl

theorem Cipher.lawful_identity : Cipher.identity.Lawful where
  decode_encode := by intro _ x y h; cases h; rfl
  length_encodeAt := by intro _ _ x y h; cases h; rfl
  length_decodeAt := by intro _ _ x y h; cases h; rfl
  decodeAt_encodeAt := by intro _ _ x y h; cases h; rfl
  encodeAt_decodeAt := by intro _ _ x y h; cases h; rfl
  decodeAt_append := by intro _ _ x x' y y' h h'; cases h; cases h'; rfl

end RecordLog
