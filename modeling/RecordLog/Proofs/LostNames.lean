import Mathlib
import RecordLog.Proofs.Folder
import RecordLog.Proofs.Frames
import RecordLog.Proofs.Mirrors

/-!
# A name that was lost

`World.Lacks` relates a world to the same world without one name of the folder of a log. What
happens to open files and to other names is the same in both, and removing the lost name leaves
nothing to be done. So nearly all operations mirror this relation.
-/

namespace RecordLog

namespace Table

variable {κ ν : Type} [DecidableEq κ]

theorem erase_self (t : Table κ ν) (k : κ) : (t.erase k).erase k = t.erase k := by
  simp only [erase, List.filter_filter, Bool.and_self]

theorem erase_comm (t : Table κ ν) (k k' : κ) :
    (t.erase k).erase k' = (t.erase k').erase k := by
  simp only [erase, List.filter_filter, Bool.and_comm]

theorem erase_insert (t : Table κ ν) {k k' : κ} (v : ν) (h : k' ≠ k) :
    (t.insert k' v).erase k = (t.erase k).insert k' v := by
  obtain ⟨es⟩ := t
  simp only [erase, insert, Table.mk.injEq]
  induction es with
  | nil => simp [put, h]
  | cons e es ih =>
    by_cases he : e.1 = k'
    · simp [put, he, h]
    have hput (es : List (κ × ν)) : put k' v (e :: es) = e :: put k' v es := by rw [put, if_neg he]
    by_cases hk : e.1 = k
    · rw [hput, List.filter_cons_of_neg (by simpa using hk),
        List.filter_cons_of_neg (by simpa using hk), ih]
    · rw [hput, List.filter_cons_of_pos (by simpa using hk),
        List.filter_cons_of_pos (by simpa using hk), hput, ih]

end Table

namespace Disk

def without (d : Disk) (p : Place) : Disk := { d with names := d.names.erase p }

variable {d d' : Disk} {p q : Place} {cfg : Config} {gone name : String}

theorem get?_without (d : Disk) (p p' : Place) :
    (d.without p).names.get? p' = if p = p' then none else d.names.get? p' :=
  Table.get?_erase _ _ _

theorem without_self (d : Disk) (p : Place) : (d.without p).without p = d.without p := by
  simp only [without, Table.erase_self]

theorem map_setContent_without (f : Content → Except IoCause Content) (d : Disk) (id : FileId)
    (p : Place) :
    (f ((d.without p).content id)).map ((d.without p).setContent id) =
      ((f (d.content id)).map (d.setContent id)).map (without · p) := by
  have hcontent : (d.without p).content id = d.content id := rfl
  rw [hcontent]
  cases f (d.content id) <;> rfl

theorem enter_of_folders {path : Path}
    (hf : ∀ p, d.names.get? p = some .folder → d'.names.get? p = some .folder)
    (h : d.enter path = .ok q) : d'.enter path = .ok q := by
  obtain ⟨hnul, hlong, hdescend⟩ := check_of_enter h
  simp only [enter, check, hnul, hlong, Bool.false_eq_true, if_false, bind, Except.bind]
  exact descend_of_folders hf hdescend

/-- The folder of a log is there, and one name in it stands for no folder. -/
structure Loose (cfg : Config) (q : Place) (gone : String) (d : Disk) : Prop where
  home : d.enter cfg.path = .ok q
  file : d.names.get? (q ++ [gone]) ≠ some .folder

namespace Loose

theorem of_folders (h : Loose cfg q gone d)
    (hf : ∀ p, d'.names.get? p = some .folder ↔ d.names.get? p = some .folder) :
    Loose cfg q gone d' where
  home := enter_of_folders (fun p hp => (hf p).2 hp) h.home
  file hp := h.file ((hf _).1 hp)

theorem folders_without (h : Loose cfg q gone d) (p : Place) :
    (d.without (q ++ [gone])).names.get? p = some .folder ↔ d.names.get? p = some .folder := by
  rw [get?_without]
  split
  · rename_i heq
    subst heq
    simp [h.file]
  · exact Iff.rfl

theorem lost (h : Loose cfg q gone d) : Loose cfg q gone (d.without (q ++ [gone])) :=
  h.of_folders h.folders_without

theorem of_setContent (h : Loose cfg q gone d) {f : Content → Except IoCause Content} {id : FileId}
    (hd : (f (d.content id)).map (d.setContent id) = .ok d') : Loose cfg q gone d' := by
  cases hf : f (d.content id) with
  | error cause => simp [hf, Except.map] at hd
  | ok c =>
    obtain rfl : d.setContent id c = d' := by simpa [hf, Except.map] using hd
    exact h.of_folders fun _ => Iff.rfl

theorem lookUp_without (hne : name ≠ gone) (d : Disk) (q : Place) :
    (d.without (q ++ [gone])).lookUp q name = d.lookUp q name := by
  have hplace : q ++ [gone] ≠ q ++ [name] := by simpa using Ne.symm hne
  rw [lookUp, lookUp, get?_without, if_neg hplace]

section locating

variable (h : Loose cfg q gone d) (hn : Path.Plain name)
include h hn

theorem target_without :
    (d.without (q ++ [gone])).target (cfg.locate name) = d.target (cfg.locate name) := by
  rw [Config.locate, Path.join_of_plain hn]
  cases hl : Path.tooLong (cfg.path ++ [name]) with
  | false => rw [target_append_plain hn hl, target_append_plain hn hl, h.home, h.lost.home]
  | true =>
    unfold target check
    rw [if_pos hl]
    split <;> rfl

variable (hne : name ≠ gone)
include hne

theorem resolve_without :
    (d.without (q ++ [gone])).resolve (cfg.locate name) = d.resolve (cfg.locate name) := by
  rw [resolve, resolve, h.target_without hn]
  cases ht : d.target (cfg.locate name) with
  | error cause => rfl
  | ok t =>
    obtain ⟨-, rfl⟩ := target_locate h.home hn ht
    simp only [bind, Except.bind, lookUp_without hne]

theorem find_without :
    (d.without (q ++ [gone])).find (cfg.locate name) = d.find (cfg.locate name) := by
  rw [find, find, h.resolve_without hn hne]

theorem openOrCreate_without :
    (d.without (q ++ [gone])).openOrCreate (cfg.locate name) =
      (d.openOrCreate (cfg.locate name)).map fun r => (r.1, r.2.without (q ++ [gone])) := by
  rw [openOrCreate, openOrCreate, h.target_without hn]
  cases ht : d.target (cfg.locate name) with
  | error cause => rfl
  | ok t =>
    obtain ⟨-, rfl⟩ := target_locate h.home hn ht
    simp only [bind, Except.bind, lookUp_without hne]
    cases d.lookUp q name with
    | error cause => rfl
    | ok found =>
      rcases found with _ | _ | _
      · have hplace : q ++ [name] ≠ q ++ [gone] := by simpa using hne
        simp only [create, without, Except.map, Table.erase_insert _ _ hplace]
      · rfl
      · rfl

theorem remove_without :
    (d.without (q ++ [gone])).remove (cfg.locate name) =
      (d.remove (cfg.locate name)).map (without · (q ++ [gone])) := by
  rw [remove, remove, h.resolve_without hn hne]
  cases d.resolve (cfg.locate name) with
  | error cause => rfl
  | ok found =>
    obtain ⟨p, _ | _⟩ := found
    · simp only [bind, Except.bind, without, Except.map, Table.erase_comm]
    · rfl

theorem rename_without {new : String} (hnew : Path.Plain new) (hne' : new ≠ gone) :
    (d.without (q ++ [gone])).rename (cfg.locate name) (cfg.locate new) =
      (d.rename (cfg.locate name) (cfg.locate new)).map (without · (q ++ [gone])) := by
  rw [rename, rename, h.resolve_without hn hne, h.target_without hnew]
  cases d.resolve (cfg.locate name) with
  | error cause => rfl
  | ok found =>
    cases ht : d.target (cfg.locate new) with
    | error cause => rfl
    | ok t =>
      obtain ⟨-, rfl⟩ := target_locate h.home hnew ht
      obtain ⟨p, id | _⟩ := found
      · have hplace : q ++ [new] ≠ q ++ [gone] := by simpa using hne'
        simp only [bind, Except.bind, lookUp_without hne']
        cases d.lookUp q new with
        | error cause => rfl
        | ok target =>
          rcases target with _ | _ | _
          · simp only [without, Except.map, Table.erase_insert _ _ hplace, Table.erase_comm]
          · simp only [without, Except.map, Table.erase_insert _ _ hplace, Table.erase_comm]
          · rfl
      · rfl

end locating

theorem remove_gone (h : Loose cfg q gone d) (hn : Path.Plain gone) :
    (∃ cause, (d.without (q ++ [gone])).remove (cfg.locate gone) = .error cause) ∧
      ∀ d', d.remove (cfg.locate gone) = .ok d' → d' = d.without (q ++ [gone]) := by
  refine ⟨?_, fun d' hd => ?_⟩
  · cases hd : (d.without (q ++ [gone])).remove (cfg.locate gone) with
    | error cause => exact ⟨cause, rfl⟩
    | ok d' =>
      obtain ⟨id, hid, -⟩ := remove_eq_ok h.lost.home hn hd
      rw [get?_without, if_pos rfl] at hid
      cases hid
  · obtain ⟨id, -, rfl⟩ := remove_eq_ok h.home hn hd
    rfl

/-- A change of the disk that comes to the same without the name, and leaves that what it is. -/
def Spares {α : Type} (cfg : Config) (q : Place) (gone : String)
    (f : Disk → Except IoCause (α × Disk)) : Prop :=
  ∀ d, d.Loose cfg q gone →
    f (d.without (q ++ [gone])) = (f d).map (fun r => (r.1, r.2.without (q ++ [gone]))) ∧
      ∀ a d', f d = .ok (a, d') → d'.Loose cfg q gone

theorem spares_openOrCreate (hn : Path.Plain name) (hne : name ≠ gone) :
    Spares cfg q gone (·.openOrCreate (cfg.locate name)) := by
  refine fun d h => ⟨h.openOrCreate_without hn hne, fun id d' hd => ?_⟩
  exact h.of_folders (changes_openOrCreate (F := { places := [q ++ [name]] }) h.home hn hd
    (by simp)).folders

theorem spares_setContent {f : Content → Except IoCause Content} (id : FileId) :
    Spares cfg q gone fun d => ((f (d.content id)).map (d.setContent id)).map ((), ·) := by
  refine fun d h => ⟨?_, fun _ d' hd => ?_⟩
  · simp only [map_setContent_without]
    cases (f (d.content id)).map (d.setContent id) <;> rfl
  · dsimp only at hd
    cases hx : (f (d.content id)).map (d.setContent id) with
    | error cause =>
      rw [hx] at hd
      cases hd
    | ok d₁ =>
      rw [hx] at hd
      cases hd
      exact h.of_setContent hx

theorem spares_rename {new : String} (hn : Path.Plain name) (hne : name ≠ gone)
    (hnew : Path.Plain new) (hne' : new ≠ gone) :
    Spares cfg q gone fun d => (d.rename (cfg.locate name) (cfg.locate new)).map ((), ·) := by
  refine fun d h => ⟨?_, fun _ d' hd => ?_⟩
  · simp only [h.rename_without hn hne hnew hne']
    cases d.rename (cfg.locate name) (cfg.locate new) <;> rfl
  · cases hr : d.rename (cfg.locate name) (cfg.locate new) with
    | error cause => simp [hr, Except.map] at hd
    | ok d₁ =>
      obtain rfl : d₁ = d' := by simpa [hr, Except.map] using hd
      obtain ⟨id, hid, -, hfolder, rfl⟩ := rename_eq_ok h.home hn hnew hr
      exact h.of_folders (Changes.move (F := { places := [q ++ [name], q ++ [new]] }) (by simp)
        (by simp) hid hfolder).folders

theorem spares_look {α : Type} {f : Disk → Except IoCause α}
    (hf : ∀ d, d.Loose cfg q gone → f (d.without (q ++ [gone])) = f d) :
    Spares cfg q gone fun d => (f d).map (·, d) := by
  refine fun d h => ⟨?_, fun a d' hd => ?_⟩
  · simp only [hf d h]
    cases f d <;> rfl
  · cases hx : f d with
    | error cause => simp [hx, Except.map] at hd
    | ok b =>
      obtain ⟨-, rfl⟩ : b = a ∧ d = d' := by simpa [hx, Except.map] using hd
      exact h

end Loose

end Disk

namespace World

def without (w : World) (p : Place) : World := { w with disk := w.disk.without p }

/-- A world, and the same world without a name. -/
structure Lacks (cfg : Config) (q : Place) (gone : String) (w w' : World) : Prop where
  loose : w.disk.Loose cfg q gone
  eq : w' = w.without (q ++ [gone])

end World

open World

variable {α : Type} {cfg : Config} {q : Place} {gone name : String}

namespace Op

theorem mirrors_ofExcept (r : Except Error α) : Mirrors (Lacks cfg q gone) (ofExcept r) := by
  cases r with
  | ok a => exact mirrors_pure a
  | error e => exact mirrors_throw _

theorem mirrors_strike (h : Hook) : Mirrors (Lacks cfg q gone) (strike h) := by
  rintro w _ ⟨hl, rfl⟩
  have hfaults : (w.without (q ++ [gone])).faults = w.faults := rfl
  simp only [strike, hfaults]
  cases w.faults.get? h with
  | none => exact .ok ⟨hl, rfl⟩
  | some f =>
    obtain ⟨after, crash, kept⟩ := f
    cases after with
    | zero => exact .ok ⟨hl, rfl⟩
    | succ n => exact .ok ⟨hl, rfl⟩

theorem mirrors_pass (h : Hook) : Mirrors (Lacks cfg q gone) (pass h) :=
  (mirrors_strike h).bind fun struck => by
    cases struck with
    | none => exact mirrors_pure _
    | some f => exact mirrors_throw _

theorem mirrors_passDisk (h : Hook) (operation : String) :
    Mirrors (Lacks cfg q gone) (passDisk h operation) :=
  (mirrors_strike h).bind fun struck => by
    cases struck with
    | none => exact mirrors_pure _
    | some f => exact mirrors_throw _

theorem mirrors_trace (e : Event) : Mirrors (Lacks cfg q gone) (trace e) :=
  mirrors_modify fun _ _ h => ⟨h.loose, by rw [h.eq]; rfl⟩

theorem mirrors_call (e : Event) (h : Hook) (r : Except Error α) :
    Mirrors (Lacks cfg q gone) (do trace e; pass h; ofExcept r) :=
  (mirrors_trace e).bind fun _ => (mirrors_pass h).bind fun _ => mirrors_ofExcept r

theorem mirrors_drawNonce : Mirrors (Lacks cfg q gone) drawNonce := by
  rintro w _ ⟨hl, rfl⟩
  exact .ok ⟨hl, rfl⟩

theorem mirrors_encrypt (c : Cipher) (data : Bytes) :
    Mirrors (Lacks cfg q gone) (encrypt c data) :=
  (mirrors_trace _).bind fun _ => (mirrors_pass _).bind fun _ =>
    mirrors_drawNonce.bind fun _ => mirrors_ofExcept _

theorem mirrors_drawSalt : Mirrors (Lacks cfg q gone) drawSalt := by
  rintro w _ ⟨hl, rfl⟩
  exact .ok ⟨hl, rfl⟩

theorem mirrors_onDisk {f : Disk → Except IoCause (α × Disk)}
    (hf : Disk.Loose.Spares cfg q gone f) (operation : String) :
    Mirrors (Lacks cfg q gone) (onDisk operation f) := by
  rintro w _ ⟨hl, rfl⟩
  obtain ⟨hwithout, hloose⟩ := hf w.disk hl
  have heq : f (w.without (q ++ [gone])).disk = _ := hwithout
  rw [onDisk, onDisk, heq]
  cases hx : f w.disk with
  | error cause => exact .error ⟨hl, rfl⟩
  | ok r => exact .ok ⟨hloose r.1 r.2 hx, rfl⟩

theorem mirrors_addHead (offset : Nat) : Mirrors (Lacks cfg q gone) (addHead offset) := by
  rintro w _ ⟨hl, rfl⟩
  exact .ok ⟨hl, rfl⟩

theorem mirrors_seek (head : HeadId) (offset : Nat) :
    Mirrors (Lacks cfg q gone) (seek head offset) :=
  mirrors_modify fun _ _ h => ⟨h.loose, by rw [h.eq]; rfl⟩

theorem mirrors_offsetOf (head : HeadId) : Mirrors (Lacks cfg q gone) (offsetOf head) := by
  rintro w _ ⟨hl, rfl⟩
  exact .ok ⟨hl, rfl⟩

theorem mirrors_readFile (id : FileId) (head : HeadId) (count : Nat) :
    Mirrors (Lacks cfg q gone) (readFile id head count) := by
  refine (mirrors_offsetOf head).bind fun _ => mirrors_get_bind ?_
  rintro w _ ⟨hl, rfl⟩
  exact (mirrors_seek head _).bind (fun _ => mirrors_pure _) w _ ⟨hl, rfl⟩

theorem mirrors_putBytes (operation : String) (id : FileId) (head : HeadId) (data : Bytes) :
    Mirrors (Lacks cfg q gone) (putBytes operation id head data) :=
  (mirrors_offsetOf head).bind fun _ =>
    (mirrors_onDisk (Disk.Loose.spares_setContent id) operation).bind fun _ =>
      mirrors_seek head _

theorem mirrors_writeFile (operation : String) (id : FileId) (head : HeadId) (data : Bytes) :
    Mirrors (Lacks cfg q gone) (writeFile operation id head data) := by
  refine (mirrors_strike .write).bind fun struck => ?_
  cases struck with
  | none => exact mirrors_putBytes operation id head data
  | some f =>
    exact (mirrors_putBytes operation id head _).bind fun _ =>
      (mirrors_throw _).bind fun _ => mirrors_putBytes operation id head data

theorem mirrors_discard (hn : Path.Plain name) :
    Mirrors (Lacks cfg q gone) (discard (cfg.locate name)) := by
  refine (mirrors_strike .remove).bind fun struck => ?_
  cases struck with
  | some f =>
    dsimp only
    split
    · exact mirrors_throw _
    · exact mirrors_pure _
  | none =>
    refine mirrors_modify ?_
    rintro w _ ⟨hl, rfl⟩
    by_cases hname : name = gone
    · subst hname
      obtain ⟨⟨cause, hnone⟩, hsome⟩ := hl.remove_gone hn
      have hnone : (w.without (q ++ [name])).disk.remove (cfg.locate name) = .error cause := hnone
      rw [hnone]
      cases hd : w.disk.remove (cfg.locate name) with
      | error cause => exact ⟨hl, rfl⟩
      | ok d =>
        obtain rfl := hsome d hd
        exact ⟨hl.lost, by simp only [without, Disk.without_self]⟩
    · have hremove : (w.without (q ++ [gone])).disk.remove (cfg.locate name) = _ :=
        hl.remove_without hn hname
      rw [hremove]
      cases hd : w.disk.remove (cfg.locate name) with
      | error cause => exact ⟨hl, rfl⟩
      | ok d =>
        obtain ⟨id, hid, rfl⟩ := Disk.remove_eq_ok hl.home hn hd
        exact ⟨hl.of_folders (Disk.Changes.erase (F := { places := [q ++ [name]] }) (by simp)
          hid).folders, rfl⟩

end Op

end RecordLog
