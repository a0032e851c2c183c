import RecordLog.Bytes

/-!
# Poly1305

A one-time authenticator: the message is read as blocks of sixteen bytes, each with a bit set
beyond its end, and evaluated as a polynomial at a point given by half the key, modulo a prime.
The other half of the key is added, and the lowest sixteen bytes are the tag.
-/

namespace RecordLog.Poly1305

def prime : Nat := (1 <<< 130) - 5

def clampMask : Nat := 0x0ffffffc0ffffffc0ffffffc0fffffff

def accumulate (r acc : Nat) (message : Bytes) : Nat :=
  match message with
  | [] => acc
  | b :: message =>
    let chunk := (b :: message).take 16
    accumulate r ((acc + Bytes.toNat chunk + 1 <<< (8 * chunk.length)) * r % prime)
      ((b :: message).drop 16)
termination_by message.length
decreasing_by simp only [List.length_drop, List.length_cons]; omega

def tag (key message : Bytes) : Bytes :=
  let r := Bytes.toNat (key.take 16) &&& clampMask
  Bytes.ofNat 16 (accumulate r 0 message + Bytes.toNat ((key.drop 16).take 16))

@[simp] theorem length_tag (key message : Bytes) : (tag key message).length = 16 := by simp [tag]

end RecordLog.Poly1305
