import RecordLog.Lz4.Block

/-!
# Finding repeated bytes

Sequences for a content are found greedily. A table remembers, for each of 4096 classes of short
byte groups, where a group of that class was last seen. From each position the table proposes one
earlier position; if the four bytes there are the same, they are taken as a match and extended
both ways. While nothing matches, the steps grow longer, so that content without repetition is
passed over quickly. The last bytes of a content are always literals.

A proposal is compared byte by byte before it is used, so the sequences found rebuild the content
whatever the table says.
-/

namespace RecordLog.Lz4

/-- A match starts no later than this many bytes before the end. -/
def startMargin : Nat := 12

/-- A match ends no later than this many bytes before the end. -/
def endMargin : Nat := 6

def maxOffset : Nat := 65535

def groupAt (x : Array UInt8) (i count : Nat) : Nat :=
  Bytes.toNat ((List.range count).map fun k => x.getD (i + k) 0)

/-- Classes of groups: four bytes at a time in short contents and five in long ones, spread by a
multiplication. -/
def classOf (x : Array UInt8) (i : Nat) : Nat :=
  if x.size < 65535 then (groupAt x i 4 * 2654435761 % UInt32.size) >>> 20
  else ((groupAt x i 5 <<< 24) * 889523592379 % UInt64.size) >>> 52

abbrev Seen := Array Nat

def Seen.empty : Seen := Array.replicate 4096 0

def Seen.note (seen : Seen) (x : Array UInt8) (i : Nat) : Seen := seen.setIfInBounds (classOf x i) i

def commonRun (x : Array UInt8) (i j : Nat) : (limit : Nat) → Nat
  | 0 => 0
  | limit + 1 =>
    if x.getD i 0 = x.getD j 0 then commonRun x (i + 1) (j + 1) limit + 1 else 0

def commonRunBack (x : Array UInt8) (i j : Nat) : (limit : Nat) → Nat
  | 0 => 0
  | limit + 1 =>
    if x.getD (i - 1) 0 = x.getD (j - 1) 0 then commonRunBack x (i - 1) (j - 1) limit + 1 else 0

structure Match where
  here : Nat
  there : Nat
  deriving Repr, DecidableEq

def usable (x : Array UInt8) (i j : Nat) : Bool :=
  decide (j < i) && decide (i - j ≤ maxOffset) && decide (commonRun x i j minMatch = minMatch)

/-- The first position from `i` on, in steps that grow with `misses`, that has a match. -/
def search (x : Array UInt8) (seen : Seen) (i misses : Nat) : Option Match × Seen :=
  if x.size < i + startMargin then (none, seen)
  else
    let proposed := seen.getD (classOf x i) 0
    let seen := seen.note x i
    if usable x i proposed then (some ⟨i, proposed⟩, seen)
    else search x seen (i + (misses / 32 + 1)) (misses + 1)
termination_by x.size - i
decreasing_by simp only [startMargin] at *; omega

def Match.extend (x : Array UInt8) (covered : Nat) (m : Match) : Match × Nat :=
  let back := commonRunBack x m.here m.there (min (m.here - covered) m.there)
  let ahead := commonRun x (m.here + minMatch) (m.there + minMatch)
    (x.size - (m.here + minMatch + endMargin))
  (⟨m.here - back, m.there - back⟩, back + minMatch + ahead)

def slice (x : Array UInt8) (i j : Nat) : Bytes := (x.extract i j).toList

theorem search_le {x : Array UInt8} {seen seen' : Seen} {i misses : Nat} {m : Match}
    (h : search x seen i misses = (some m, seen')) :
    i ≤ m.here ∧ m.here + startMargin ≤ x.size := by
  fun_induction search x seen i misses with
  | case1 => simp at h
  | case2 =>
    simp only [Prod.mk.injEq, Option.some.injEq] at h
    rw [← h.1]
    dsimp only
    omega
  | case3 _ _ _ _ _ _ _ ih =>
    have := ih h
    omega

/-- The sequences of a content whose bytes before `covered` are already covered, and the literals
at its end; the search goes on at `i`. -/
def sequences (x : Array UInt8) (seen : Seen) (covered i : Nat) (acc : Array Sequence) :
    List Sequence × Bytes :=
  match hs : search x seen i 0 with
  | (none, _) => (acc.toList, slice x covered x.size)
  | (some m, seen) =>
    let (found, length) := m.extend x covered
    let stop := found.here + length
    if _ : i < stop ∧ stop ≤ x.size then
      have := search_le hs
      sequences x (seen.note x (stop - 2)) stop stop
        (acc.push ⟨slice x covered found.here, found.here - found.there, length⟩)
    else (acc.toList, slice x covered x.size)
termination_by x.size - i
decreasing_by
  simp only [startMargin] at *
  omega

def encode (bs : Bytes) : Bytes :=
  let x := bs.toArray
  if x.size ≤ startMargin then encodeBlock x.size [] bs
  else
    let (found, last) := sequences x (Seen.empty.note x 0) 0 1 #[]
    encodeBlock x.size found last

end RecordLog.Lz4
