import RecordLog.Bytes

/-!
# Sparse byte strings

A file can be far longer than all that was ever written to it, and it grows by many small pieces.
A `Sparse` string is a list of extents: what was written, in pieces of bounded growth, and of the
zeros that fill a gap only the number. `Sparse.toBytes` is the string that is meant. Each operation
says what it does to that string; none spells a gap out or copies the pieces it does not touch.
-/

namespace RecordLog

inductive Extent where
  | data (b : Bytes) (count : Nat) (length_eq : b.length = count)
  /-- A run of zeros. -/
  | gap (count : Nat)
  deriving Repr, DecidableEq

namespace Extent

def ofBytes (b : Bytes) : Extent := .data b b.length rfl

def size : Extent → Nat
  | .data _ count _ => count
  | .gap count => count

def toBytes : Extent → Bytes
  | .data b _ _ => b
  | .gap count => List.replicate count 0

def front (n : Nat) : Extent → Extent
  | .data b count h => .data (b.take n) (min n count) (by simp [h])
  | .gap count => .gap (min n count)

def rest (n : Nat) : Extent → Extent
  | .data b count h => .data (b.drop n) (count - n) (by simp [h])
  | .gap count => .gap (count - n)

@[simp] theorem toBytes_ofBytes (b : Bytes) : (ofBytes b).toBytes = b := rfl

@[simp] theorem length_toBytes (e : Extent) : e.toBytes.length = e.size := by
  cases e <;> simp [toBytes, size, *]

theorem toBytes_front (n : Nat) (e : Extent) : (e.front n).toBytes = e.toBytes.take n := by
  cases e <;> simp [toBytes, front]

theorem toBytes_rest (n : Nat) (e : Extent) : (e.rest n).toBytes = e.toBytes.drop n := by
  cases e <;> simp [toBytes, rest]

end Extent

abbrev Sparse := List Extent

namespace Sparse

def ofBytes (b : Bytes) : Sparse := [.ofBytes b]

def size : Sparse → Nat
  | [] => 0
  | e :: x => e.size + size x

def toBytes (x : Sparse) : Bytes := x.flatMap Extent.toBytes

@[simp] theorem toBytes_ofBytes (b : Bytes) : toBytes (ofBytes b) = b := by
  simp [toBytes, ofBytes]

@[simp] theorem length_toBytes (x : Sparse) : x.toBytes.length = x.size := by
  induction x with
  | nil => rfl
  | cons e x ih =>
    rw [size, ← ih, ← e.length_toBytes, ← List.length_append]
    rfl

theorem toBytes_append (x y : Sparse) : toBytes (x ++ y) = x.toBytes ++ y.toBytes := by
  simp [toBytes]

def front : (n : Nat) → Sparse → Sparse
  | _, [] => []
  | n, e :: x => if n < e.size then [e.front n] else e :: front (n - e.size) x

theorem toBytes_front (n : Nat) (x : Sparse) : (front n x).toBytes = x.toBytes.take n := by
  fun_induction front n x with
  | case1 => simp [toBytes]
  | case2 n e x h => simp [toBytes, Extent.toBytes_front, List.take_append, Nat.le_of_lt h]
  | case3 n e x h ih =>
    simp only [toBytes, List.flatMap_cons] at ih ⊢
    rw [ih, List.take_append, List.take_of_length_le (l := e.toBytes) (by simp; omega),
      Extent.length_toBytes]

def rest : (n : Nat) → Sparse → Sparse
  | _, [] => []
  | n, e :: x => if n < e.size then e.rest n :: x else rest (n - e.size) x

theorem toBytes_rest (n : Nat) (x : Sparse) : (rest n x).toBytes = x.toBytes.drop n := by
  fun_induction rest n x with
  | case1 => simp [toBytes]
  | case2 n e x h => simp [toBytes, Extent.toBytes_rest, List.drop_append, Nat.le_of_lt h]
  | case3 n e x h ih =>
    simp only [toBytes, List.flatMap_cons] at ih ⊢
    rw [ih, List.drop_append, List.drop_of_length_le (l := e.toBytes) (by simp; omega),
      Extent.length_toBytes]
    simp

def range (offset count : Nat) (x : Sparse) : Bytes := ((x.rest offset).front count).toBytes

theorem range_eq (offset count : Nat) (x : Sparse) :
    x.range offset count = (x.toBytes.drop offset).take count := by
  rw [range, toBytes_front, toBytes_rest]

def resize (size : Nat) (x : Sparse) : Sparse :=
  if size ≤ x.size then x.front size else x ++ [.gap (size - x.size)]

theorem toBytes_resize (size : Nat) (x : Sparse) :
    (x.resize size).toBytes = x.toBytes.take size ++ List.replicate (size - x.size) 0 := by
  unfold resize
  split
  · rename_i h
    simp [toBytes_front, Nat.sub_eq_zero_of_le h]
  · rw [List.take_of_length_le (by simp; omega)]
    simp [toBytes, Extent.toBytes]

/-- Up to this length a piece grows. -/
def pieceSize : Nat := 2048

def push (b : Bytes) : Sparse → Sparse
  | [] => [.ofBytes b]
  | [.data a count h] =>
    if count < pieceSize then [.data (a ++ b) (count + b.length) (by simp [h])]
    else [.data a count h, .ofBytes b]
  | e :: x => e :: push b x

theorem toBytes_push (b : Bytes) (x : Sparse) : (push b x).toBytes = x.toBytes ++ b := by
  fun_induction push b x with
  | case1 => simp [toBytes]
  | case2 => simp [toBytes, Extent.toBytes]
  | case3 => simp [toBytes]
  | case4 e x _ ih =>
    simp only [toBytes, List.flatMap_cons, List.append_assoc] at ih ⊢
    rw [ih]

/-- Lays bytes over others from an offset on, with zeros in a gap before them. -/
def overlay (offset : Nat) (b : Bytes) (x : Sparse) : Sparse :=
  if b = [] then x else push b (x.resize offset) ++ x.rest (offset + b.length)

theorem toBytes_overlay {offset : Nat} {b : Bytes} {x : Sparse} (h : offset ≤ x.size) :
    (x.overlay offset b).toBytes =
      x.toBytes.take offset ++ (b ++ x.toBytes.drop (offset + b.length)) := by
  unfold overlay
  split
  · rename_i hb
    simp [hb]
  · rw [toBytes_append, toBytes_push, toBytes_resize, toBytes_rest, Nat.sub_eq_zero_of_le h]
    simp

def combine (offset : Nat) (mask : Bytes) (x : Sparse) : Sparse :=
  x.overlay offset (Bytes.xor (x.range offset mask.length) mask)

def isZero (x : Sparse) : Bool :=
  x.all fun
    | .data b _ _ => b.all (· = 0)
    | .gap _ => true

end Sparse

end RecordLog
