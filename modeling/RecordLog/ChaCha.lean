import RecordLog.ChaCha.Poly1305
import RecordLog.ChaCha.Stream
import RecordLog.Transform

/-!
# ChaCha20 as a cipher

A sealed segment is encrypted with ChaCha20 and carries a Poly1305 tag; its nonce stands in
front. Decoding accepts a string only if its tag is the one recomputed from it. The bytes of a
live file are combined with a key stream of their own, named by the segment's start and salt, and
addressed by offset. The 32-bit block counter bounds how far such a stream reaches.
-/

namespace RecordLog.ChaCha

def nonceSize : Nat := 12

def tagSize : Nat := 16

def maxBlocks : Nat := UInt32.size - 1

namespace Sealed

def stream (key : Key) (nonce : Bytes) : Stream :=
  .ofKey key (Row.wordAt nonce 0) (Row.wordAt nonce 4) (Row.wordAt nonce 8)

def padding (n : Nat) : Bytes := List.replicate ((16 - n % 16) % 16) 0

/-- The tag covers the encrypted bytes, filled up to sixteen, and their number. -/
def tag (s : Stream) (encrypted : Bytes) : Bytes :=
  Poly1305.tag ((s.block 0).take 32)
    (encrypted ++ padding encrypted.length ++ Bytes.ofNat 8 0 ++ Bytes.ofNat 8 encrypted.length)

def encode (key : Key) (nonce data : Bytes) : Bytes :=
  let s := stream key nonce
  let encrypted := s.apply 64 data
  nonce ++ encrypted ++ tag s encrypted

def decode (key : Key) (bs : Bytes) : Except Error Bytes :=
  if bs.length < nonceSize then .error (.transform "data too short for nonce")
  else
    let s := stream key (bs.take nonceSize)
    let body := bs.drop nonceSize
    let encrypted := body.take (body.length - tagSize)
    if body.length < tagSize ∨ maxBlocks ≤ encrypted.length / 64 then
      .error (.transform "decrypt: aead::Error")
    else if tag s encrypted = body.drop encrypted.length then .ok (s.apply 64 encrypted)
    else .error (.transform "decrypt: aead::Error")

end Sealed

namespace Live

/-- The eight bytes that set key streams of live files apart from all others. -/
def label : Bytes := [0x63, 0x65, 0x6c, 0x6c, 0x61, 0x72, 0x62, 0x66]

def stream (key : Key) (id : SegmentId) : Stream :=
  let inner := Bytes.ofNat 8 id.salt.toNat
  .ofKey (subkey key (Row.ofBytes (label ++ Bytes.ofNat 8 id.start))) 0
    (Row.wordAt inner 0) (Row.wordAt inner 4)

/-- Bytes of the block at `offset` that were made when the stream was positioned there. -/
def buffered (offset : Nat) : Nat := if offset % 64 = 0 then 0 else 64 - offset % 64

def counter (offset : Nat) : Nat :=
  if offset % 64 = 0 then offset / 64 else (offset / 64 + 1) % UInt32.size

/-- Whether the blocks still to be made for `size` bytes are within the counter's reach. -/
def reaches (offset size : Nat) : Bool :=
  decide ((size - buffered offset + 63) / 64 ≤ maxBlocks - counter offset)

def apply (key : Key) (id : SegmentId) (offset : Nat) (data : Bytes) : Except Error Bytes :=
  if maxBlocks < offset / 64 then .error (.transform "keystream seek: Loop Error")
  else if reaches offset data.length then .ok ((stream key id).apply offset data)
  else .error (.transform "keystream: Loop Error")

end Live

end ChaCha

open ChaCha in
/-- ChaCha20-Poly1305 for sealed segments, XChaCha20 for live files. -/
def Cipher.chacha (key : Key) : Cipher where
  name := "ChaChaCipher"
  encode nonce data :=
    if maxBlocks ≤ data.length / 64 then .error (.transform "encrypt: aead::Error")
    else .ok (Sealed.encode key nonce.bytes data)
  decode := Sealed.decode key
  encodeAt := Live.apply key
  decodeAt := Live.apply key

end RecordLog
