/-!
# Paths

A path is kept as it was written: the list of the parts between its slashes, among them empty
parts and the parts `.` and `..`, which only a disk can follow. Joining puts a name behind a
folder, unless the name starts anew with a slash.
-/

namespace RecordLog

abbrev Path := List String

namespace Path

def split : List Char → List (List Char)
  | [] => [[]]
  | c :: rest =>
    if c = '/' then [] :: split rest
    else
      match split rest with
      | [] => [[c]]
      | part :: parts => (c :: part) :: parts

def ofString (s : String) : Path := (split s.toList).map String.ofList

def join (folder : Path) (name : String) : Path :=
  if name.toList.head? = some '/' then ofString name else folder ++ ofString name

/-- Whether a part stays in the folder that the parts before it lead to. -/
def Stays (part : String) : Prop := part = "" ∨ part = "."

instance (part : String) : Decidable (Stays part) := inferInstanceAs (Decidable (_ ∨ _))

def moves (p : Path) : Path := p.filter fun part => ¬ Stays part

def parent? (p : Path) : Option Path :=
  match p.moves with
  | [] => none
  | part :: parts => some (part :: parts).dropLast

def fileName? (p : Path) : Option String := p.moves.getLast?

theorem length_lt_of_parent? {p above : Path} (h : p.parent? = some above) :
    above.length < p.length := by
  have hp : p.moves.length ≤ p.length := List.length_filter_le ..
  unfold parent? at h
  split at h
  · simp at h
  · rename_i hm
    rw [hm] at hp
    simp only [Option.some.injEq] at h
    simp only [← h, List.length_dropLast, List.length_cons] at hp ⊢
    omega

def hasNul (p : Path) : Bool := p.any (·.toList.contains '\x00')

def limit : Nat := 4095

/-- The bytes of a path, a slash before each part included. -/
def byteSize : Path → Nat
  | [] => 0
  | part :: p => part.utf8ByteSize + 1 + byteSize p

def tooLong (p : Path) : Bool := decide (limit < p.byteSize)

theorem byteSize_le_of_sublist {p q : Path} (h : p.Sublist q) : p.byteSize ≤ q.byteSize := by
  induction h with
  | slnil => exact Nat.le_refl _
  | cons part _ ih => exact Nat.le_trans ih (Nat.le_add_left ..)
  | cons_cons part _ ih => exact Nat.add_le_add_left ih _

theorem tooLong_of_sublist {p q : Path} (h : p.Sublist q) (hq : q.tooLong = false) :
    p.tooLong = false := by
  simp only [tooLong, decide_eq_false_iff_not, Nat.not_lt] at hq ⊢
  exact Nat.le_trans (byteSize_le_of_sublist h) hq

/-- A name that is one part and leads to something in the folder. -/
structure Plain (name : String) : Prop where
  slash : '/' ∉ name.toList
  stays : ¬ Stays name
  up : name ≠ ".."
  nul : '\x00' ∉ name.toList

theorem split_of_not_mem {cs : List Char} (h : '/' ∉ cs) : split cs = [cs] := by
  induction cs with
  | nil => rfl
  | cons c cs ih =>
    simp only [List.mem_cons, not_or] at h
    simp [split, Ne.symm h.1, ih h.2]

theorem join_of_plain {folder : Path} {name : String} (h : Plain name) :
    join folder name = folder ++ [name] := by
  have hh : name.toList.head? ≠ some '/' := fun e => h.slash (List.mem_of_mem_head? e)
  simp [join, hh, ofString, split_of_not_mem h.slash]

end Path

end RecordLog
