import RecordLog.Bytes

/-!
# The ChaCha20 block function

The state is a grid of sixteen words in four rows. A round mixes the four columns at once, row
against row; turning the rows before and after mixes the diagonals instead. Ten pairs of such
rounds scramble the grid. `block` adds the grid it started from and writes the words out, which
gives 64 bytes for each counter value; `subkey` keeps the outer rows, which gives a new key for
each 16-byte nonce.
-/

namespace RecordLog.ChaCha

structure Row where
  a : UInt32
  b : UInt32
  c : UInt32
  d : UInt32
  deriving Repr, DecidableEq

namespace Row

def add (r s : Row) : Row := ⟨r.a + s.a, r.b + s.b, r.c + s.c, r.d + s.d⟩

def rotateLeft (w n : UInt32) : UInt32 := (w <<< n) ||| (w >>> (32 - n))

/-- Combines two rows by exclusive or and turns the bits of each word left. -/
def blend (r s : Row) (n : UInt32) : Row :=
  ⟨rotateLeft (r.a ^^^ s.a) n, rotateLeft (r.b ^^^ s.b) n, rotateLeft (r.c ^^^ s.c) n,
    rotateLeft (r.d ^^^ s.d) n⟩

def turn (r : Row) : Row := ⟨r.b, r.c, r.d, r.a⟩

def toBytes (r : Row) : Bytes :=
  Bytes.ofNat 4 r.a.toNat ++ Bytes.ofNat 4 r.b.toNat ++ Bytes.ofNat 4 r.c.toNat ++
    Bytes.ofNat 4 r.d.toNat

@[simp] theorem length_toBytes (r : Row) : r.toBytes.length = 16 := by simp [toBytes]

/-- The word in four bytes from `i` on, missing bytes being zero. -/
def wordAt (bs : Bytes) (i : Nat) : UInt32 := (Bytes.toNat ((bs.drop i).take 4)).toUInt32

def ofBytes (bs : Bytes) : Row := ⟨wordAt bs 0, wordAt bs 4, wordAt bs 8, wordAt bs 12⟩

end Row

structure Key where
  low : Row
  high : Row
  deriving Repr, DecidableEq

namespace Key

def ofBytes (bs : Bytes) : Key := ⟨Row.ofBytes bs, Row.ofBytes (bs.drop 16)⟩

end Key

structure Grid where
  r0 : Row
  r1 : Row
  r2 : Row
  r3 : Row

namespace Grid

def add (g h : Grid) : Grid := ⟨g.r0.add h.r0, g.r1.add h.r1, g.r2.add h.r2, g.r3.add h.r3⟩

def round (g : Grid) : Grid :=
  let r0 := g.r0.add g.r1
  let r3 := g.r3.blend r0 16
  let r2 := g.r2.add r3
  let r1 := g.r1.blend r2 12
  let r0 := r0.add r1
  let r3 := r3.blend r0 8
  let r2 := r2.add r3
  let r1 := r1.blend r2 7
  ⟨r0, r1, r2, r3⟩

def slant (g : Grid) : Grid := ⟨g.r0, g.r1.turn, g.r2.turn.turn, g.r3.turn.turn.turn⟩

def unslant (g : Grid) : Grid := ⟨g.r0, g.r1.turn.turn.turn, g.r2.turn.turn, g.r3.turn⟩

def scramble (g : Grid) : (pairs : Nat) → Grid
  | 0 => g
  | pairs + 1 => scramble g.round.slant.round.unslant pairs

def constants : Row := ⟨0x61707865, 0x3320646e, 0x79622d32, 0x6b206574⟩

def toBytes (g : Grid) : Bytes :=
  g.r0.toBytes ++ g.r1.toBytes ++ g.r2.toBytes ++ g.r3.toBytes

@[simp] theorem length_toBytes (g : Grid) : g.toBytes.length = 64 := by simp [toBytes]

end Grid

/-- The 64 bytes of the key stream at a counter; the nonce is three words long. -/
def block (key : Key) (counter : UInt32) (n0 n1 n2 : UInt32) : Bytes :=
  let g : Grid := ⟨Grid.constants, key.low, key.high, ⟨counter, n0, n1, n2⟩⟩
  ((g.scramble 10).add g).toBytes

@[simp] theorem length_block (key : Key) (counter n0 n1 n2 : UInt32) :
    (block key counter n0 n1 n2).length = 64 := by
  simp [block]

def subkey (key : Key) (nonce : Row) : Key :=
  let g := (Grid.mk Grid.constants key.low key.high nonce).scramble 10
  ⟨g.r0, g.r3⟩

end RecordLog.ChaCha
