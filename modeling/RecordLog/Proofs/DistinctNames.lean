import Mathlib
import RecordLog.Proofs.FileNames

/-!
# No two files of a log have one name

The draft of a chunk has the name of the chunk with another extension. A live segment, a chunk, a
draft and the index have different names, and of each kind those at different positions, also
where a position has more digits than names are padded to.
-/

namespace RecordLog

namespace FileName

def beforeDot (name : String) : List Char :=
  (name.toList.reverse.dropWhile (· ≠ '.')).tail.reverse

/-- The name of a file without its extension. A name has none if it has no dot, or no other than
the one it begins with. -/
def stem (name : String) : String :=
  if beforeDot name = [] then name else String.ofList (beforeDot name)

def withExtension (name ext : String) : String := stem name ++ "." ++ ext

theorem beforeDot_append {s : String} {ext : List Char} (h : '.' ∉ ext) :
    beforeDot (s ++ String.ofList ('.' :: ext)) = s.toList := by
  have hext : ∀ c ∈ ext.reverse, decide (c ≠ '.') = true := fun c hc =>
    decide_eq_true fun hdot => h (hdot ▸ List.mem_reverse.1 hc)
  simp only [beforeDot, String.toList_append, String.toList_ofList, List.reverse_append,
    List.reverse_cons, List.append_assoc]
  rw [List.dropWhile_append_of_pos hext]
  simp

theorem stem_append {s : String} (ext : List Char) (h : '.' ∉ ext) (hs : s.toList ≠ []) :
    stem (s ++ String.ofList ('.' :: ext)) = s := by
  rw [stem, beforeDot_append h, if_neg hs, String.ofList_toList]

end FileName

/-- A draft is named after its chunk. -/
theorem draftFileName_eq_withExtension (start : Nat) :
    draftFileName start = FileName.withExtension (chunkFileName start) "tmp" := by
  have hstem : FileName.stem (chunkFileName start) = padded start :=
    FileName.stem_append "chunk".toList (by decide) (padded_ne_nil start)
  rw [FileName.withExtension, hstem, String.append_assoc]
  rfl

/-- The files of a log, a draft by the position of its chunk. -/
inductive LogFile where
  | live (start : Nat)
  | chunk (start : Nat)
  | draft (start : Nat)
  | index
  deriving DecidableEq

namespace LogFile

def name : LogFile → String
  | live start => bufferFileName start
  | chunk start => chunkFileName start
  | draft start => FileName.withExtension (chunkFileName start) "tmp"
  | index => indexFileName

theorem name_draft (start : Nat) : (draft start).name = draftFileName start :=
  (draftFileName_eq_withExtension start).symm

theorem eq_of_name_eq_live {p : Nat} {g : LogFile} (h : g.name = bufferFileName p) :
    g = live p := by
  cases g with
  | live q => rw [bufferFileName_injective h]
  | chunk q => exact absurd h (chunkFileName_ne_bufferFileName q p)
  | draft q => exact absurd ((name_draft q).symm.trans h) (draftFileName_ne_bufferFileName q p)
  | index => exact absurd h.symm (LogName.live p).ne_index

theorem eq_of_name_eq_chunk {p : Nat} {g : LogFile} (h : g.name = chunkFileName p) :
    g = chunk p := by
  cases g with
  | live q => exact absurd h.symm (chunkFileName_ne_bufferFileName p q)
  | chunk q => rw [chunkFileName_injective h]
  | draft q => exact absurd ((name_draft q).symm.trans h) (draftFileName_ne_chunkFileName q p)
  | index => exact absurd h.symm (LogName.chunk p).ne_index

theorem eq_of_name_eq_draft {p : Nat} {g : LogFile} (h : g.name = draftFileName p) :
    g = draft p := by
  cases g with
  | live q => exact absurd h.symm (draftFileName_ne_bufferFileName p q)
  | chunk q => exact absurd h.symm (draftFileName_ne_chunkFileName p q)
  | draft q => rw [draftFileName_injective ((name_draft q).symm.trans h)]
  | index => exact absurd h.symm (LogName.draft p).ne_index

theorem eq_of_name_eq_index {g : LogFile} (h : g.name = indexFileName) : g = index := by
  cases g with
  | live q => exact absurd h (LogName.live q).ne_index
  | chunk q => exact absurd h (LogName.chunk q).ne_index
  | draft q => exact absurd ((name_draft q).symm.trans h) (LogName.draft q).ne_index
  | index => rfl

/-- Files with the same name are of one kind and belong to the same position. -/
theorem name_injective : Function.Injective name := by
  intro f g h
  cases f with
  | live p => exact (eq_of_name_eq_live h.symm).symm
  | chunk p => exact (eq_of_name_eq_chunk h.symm).symm
  | draft p => exact (eq_of_name_eq_draft (h.symm.trans (name_draft p))).symm
  | index => exact (eq_of_name_eq_index h.symm).symm

/-- From thirteen digits on, nothing stands in front of a position. -/
example : (live (10 ^ 12)).name = "1000000000000" ∧
    (chunk (10 ^ 12 - 1)).name = "999999999999.chunk" ∧
    (draft 1234).name = "000000001234.tmp" := by
  decide +kernel

end LogFile

end RecordLog
