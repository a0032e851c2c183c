import Mathlib
import RecordLog.Config
import RecordLog.Proofs.FileNames
import RecordLog.Proofs.Footprint

/-!
# The files of a folder

The files of a log are names in one folder, so an operation on one of them comes down to the entry
at one place. The folder is found again on every disk that was changed within a footprint.
-/

namespace RecordLog

/-- A name that is not too long, neither alone nor behind the folder. -/
structure Config.Reaches (cfg : Config) (name : String) : Prop where
  short : name.utf8ByteSize ≤ 255
  path : Path.tooLong (cfg.path ++ [name]) = false

/-- A footprint among the files of the log in a folder. -/
structure Footprint.InLog (F : Footprint) (q : Place) (d : Disk) : Prop where
  places : ∀ p ∈ F.places, ∃ name, LogName name ∧ p = q ++ [name]
  files : ∀ id ∈ F.files, ∃ name, LogName name ∧ d.names.get? (q ++ [name]) = some (.file id)

namespace Disk

variable {d d' : Disk} {cfg : Config} {q : Place} {name : String}

theorem into_of_folders {p r : Place} {part : String}
    (hf : ∀ p, d.names.get? p = some .folder → d'.names.get? p = some .folder)
    (h : d.into p part = .ok r) : d'.into p part = .ok r := by
  unfold into lookUp at h ⊢
  by_cases hl : 255 < part.utf8ByteSize
  · simp [hl, bind, Except.bind] at h
  · simp only [hl, if_false, bind, Except.bind] at h ⊢
    split at h
    · cases h
    · cases h
    · rename_i hn
      simpa [hf _ hn] using h

theorem descend_of_folders {p r : Place} {path : Path}
    (hf : ∀ p, d.names.get? p = some .folder → d'.names.get? p = some .folder)
    (h : d.descend p path = .ok r) : d'.descend p path = .ok r := by
  induction path generalizing p with
  | nil => exact h
  | cons part rest ih =>
    unfold descend at h ⊢
    by_cases hs : Path.Stays part
    · rw [if_pos hs] at h ⊢
      exact ih h
    · rw [if_neg hs] at h ⊢
      by_cases hu : part = ".."
      · rw [if_pos hu] at h ⊢
        exact ih h
      · rw [if_neg hu] at h ⊢
        cases hi : d.into p part with
        | error e => simp [hi, bind, Except.bind] at h
        | ok s =>
          simp only [hi, into_of_folders hf hi, bind, Except.bind] at h ⊢
          exact ih h

theorem Changes.enter {F : Footprint} {path : Path} (hc : Changes F d d')
    (h : d.enter path = .ok q) : d'.enter path = .ok q := by
  unfold Disk.enter at h ⊢
  cases hk : check path with
  | error e => simp [hk, bind, Except.bind] at h
  | ok u =>
    simp only [hk, bind, Except.bind] at h ⊢
    exact descend_of_folders (fun p hp => (hc.folders p).2 hp) h

theorem check_of_enter {path : Path} (h : d.enter path = .ok q) :
    path.hasNul = false ∧ path.tooLong = false ∧ d.descend [] path = .ok q := by
  unfold enter check at h
  cases hn : path.hasNul <;> cases hl : path.tooLong <;>
    simp_all [bind, Except.bind]

theorem enter_of_openOrCreate {folder : Path} {name : String} {id : FileId} (hn : Path.Plain name)
    (h : d.openOrCreate (Path.join folder name) = .ok (id, d')) : ∃ q, d.enter folder = .ok q := by
  rw [Path.join_of_plain hn, openOrCreate] at h
  cases hl : Path.tooLong (folder ++ [name]) with
  | true =>
    obtain ⟨e, he⟩ : ∃ e, d.target (folder ++ [name]) = .error e := by
      unfold target check
      rw [if_pos hl]
      split <;> exact ⟨_, rfl⟩
    simp [he, bind, Except.bind] at h
  | false =>
    cases hq : d.enter folder with
    | ok q => exact ⟨q, rfl⟩
    | error e => simp [target_append_plain hn hl, hq, Except.map, bind, Except.bind] at h

section locating

variable (hq : d.enter cfg.path = .ok q) (hn : Path.Plain name)
include hq hn

theorem target_locate {t : Target} (h : d.target (cfg.locate name) = .ok t) :
    Path.tooLong (cfg.path ++ [name]) = false ∧ t = .name q name false := by
  rw [Config.locate, Path.join_of_plain hn] at h
  cases hl : Path.tooLong (cfg.path ++ [name]) with
  | false =>
    rw [target_append_plain hn hl, hq] at h
    exact ⟨rfl, (Except.ok.inj h).symm⟩
  | true =>
    have hnul : Path.hasNul (cfg.path ++ [name]) = false := by
      have hp := (check_of_enter hq).1
      rw [Path.hasNul] at hp
      rw [Path.hasNul, List.any_append, hp]
      simp [hn.nul]
    simp [target, check, hl, hnul, bind, Except.bind] at h

theorem target_of_reaches (hr : cfg.Reaches name) :
    d.target (cfg.locate name) = .ok (.name q name false) := by
  rw [Config.locate, Path.join_of_plain hn, target_append_plain hn hr.path, hq]
  rfl

theorem openOrCreate_eq_ok {id : FileId} (h : d.openOrCreate (cfg.locate name) = .ok (id, d')) :
    cfg.Reaches name ∧
      (d.names.get? (q ++ [name]) = some (.file id) ∧ d' = d ∨
        d.names.get? (q ++ [name]) = none ∧ (id, d') = d.create (q ++ [name]) (.bytes [])) := by
  unfold openOrCreate at h
  cases ht : d.target (cfg.locate name) with
  | error e => simp [ht, bind, Except.bind] at h
  | ok t =>
    obtain ⟨hl, rfl⟩ := target_locate hq hn ht
    simp only [ht, bind, Except.bind, lookUp] at h
    by_cases hs : 255 < name.utf8ByteSize
    · simp [hs] at h
    · refine ⟨⟨Nat.le_of_not_lt hs, hl⟩, ?_⟩
      simp only [hs, if_false] at h
      split at h
      · cases h
      · rename_i i hi
        cases h
        exact .inl ⟨hi, rfl⟩
      · rename_i hi
        exact .inr ⟨hi, (Except.ok.inj h).symm⟩

section opening

variable {F : Footprint} {id : FileId} (h : d.openOrCreate (cfg.locate name) = .ok (id, d'))
include h

theorem changes_openOrCreate (hF : q ++ [name] ∈ F.places) : Changes F d d' := by
  obtain ⟨-, ⟨-, rfl⟩ | ⟨hnone, hcr⟩⟩ := openOrCreate_eq_ok hq hn h
  · exact .refl _ _
  · obtain rfl : d' = _ := congrArg Prod.snd hcr
    exact .create (by simp) hF hnone

theorem names_openOrCreate : d'.names.get? (q ++ [name]) = some (.file id) := by
  obtain ⟨-, ⟨hid, rfl⟩ | ⟨-, hcr⟩⟩ := openOrCreate_eq_ok hq hn h
  · exact hid
  · obtain rfl : d' = _ := congrArg Prod.snd hcr
    obtain rfl : id = d.files.length := congrArg Prod.fst hcr
    rw [names_create, if_pos rfl]

theorem content_openOrCreate :
    d.names.get? (q ++ [name]) = some (.file id) ∧ d'.content id = d.content id ∨
      d.names.get? (q ++ [name]) = none ∧ d'.content id = .bytes [] := by
  obtain ⟨-, ⟨hid, rfl⟩ | ⟨hnone, hcr⟩⟩ := openOrCreate_eq_ok hq hn h
  · exact .inl ⟨hid, rfl⟩
  · obtain rfl : d' = _ := congrArg Prod.snd hcr
    obtain rfl : id = d.files.length := congrArg Prod.fst hcr
    exact .inr ⟨hnone, by rw [content_create, if_pos rfl]⟩

theorem bytes_openOrCreate {b : Bytes} (hb : d.Holds (q ++ [name]) b) :
    ∃ x, d'.content id = .bytes x ∧ x.toBytes = b := by
  obtain ⟨id', x, hid', hx, hb⟩ := hb
  rcases content_openOrCreate hq hn h with ⟨hid, hc⟩ | ⟨hnone, -⟩
  · rw [hid] at hid'
    cases hid'
    exact ⟨x, hc.trans hx, hb⟩
  · rw [hnone] at hid'
    cases hid'

end opening

theorem openOrCreate_of_file (hr : cfg.Reaches name) {id : FileId}
    (hf : d.names.get? (q ++ [name]) = some (.file id)) :
    d.openOrCreate (cfg.locate name) = .ok (id, d) := by
  simp [openOrCreate, target_of_reaches hq hn hr, lookUp_of_short hr.short, hf, bind, Except.bind]

theorem resolve_of_reaches (hr : cfg.Reaches name) :
    d.resolve (cfg.locate name) =
      match d.names.get? (q ++ [name]) with
      | none => .error IoCause.noEntry
      | some e => .ok (q ++ [name], e) := by
  simp only [resolve, target_of_reaches hq hn hr, lookUp_of_short hr.short, bind, Except.bind]
  cases d.names.get? (q ++ [name]) with
  | none => rfl
  | some e => cases e <;> rfl

theorem find_of_reaches (hr : cfg.Reaches name) :
    d.find (cfg.locate name) =
      match d.names.get? (q ++ [name]) with
      | none => .error IoCause.noEntry
      | some e => .ok e := by
  rw [find, resolve_of_reaches hq hn hr]
  cases d.names.get? (q ++ [name]) <;> rfl

theorem readAll_of_holds (hr : cfg.Reaches name) {b : Bytes} (hb : d.Holds (q ++ [name]) b) :
    d.readAll (cfg.locate name) = .ok b := by
  obtain ⟨id, x, hi, hc, rfl⟩ := hb
  simp [readAll, find_of_reaches hq hn hr, hi, hc, Content.all, bind, Except.bind]

theorem resolve_eq_ok {p : Place} {e : Entry} (h : d.resolve (cfg.locate name) = .ok (p, e)) :
    cfg.Reaches name ∧ p = q ++ [name] ∧ d.names.get? (q ++ [name]) = some e := by
  cases ht : d.target (cfg.locate name) with
  | error e => simp [resolve, ht, bind, Except.bind] at h
  | ok t =>
    obtain ⟨hl, rfl⟩ := target_locate hq hn ht
    by_cases hs : 255 < name.utf8ByteSize
    · simp [resolve, ht, lookUp, hs, bind, Except.bind] at h
    · have hr : cfg.Reaches name := ⟨Nat.le_of_not_lt hs, hl⟩
      rw [resolve_of_reaches hq hn hr] at h
      split at h
      · cases h
      · rename_i he
        cases h
        exact ⟨hr, rfl, he⟩

theorem find_eq_ok {e : Entry} (h : d.find (cfg.locate name) = .ok e) :
    cfg.Reaches name ∧ d.names.get? (q ++ [name]) = some e := by
  cases hres : d.resolve (cfg.locate name) with
  | error e => simp [find, hres, Except.map] at h
  | ok pe =>
    simp only [find, hres, Except.map, Except.ok.injEq] at h
    obtain ⟨hr, -, he⟩ := resolve_eq_ok hq hn (p := pe.1) (e := pe.2) hres
    exact ⟨hr, h ▸ he⟩

theorem rename_eq_ok {new : String} (hnew : Path.Plain new)
    (h : d.rename (cfg.locate name) (cfg.locate new) = .ok d') :
    ∃ id, d.names.get? (q ++ [name]) = some (.file id) ∧ cfg.Reaches new ∧
      d.names.get? (q ++ [new]) ≠ some .folder ∧
      d' = { d with
        names := (d.names.erase (q ++ [name])).insert (q ++ [new]) (.file id) } := by
  unfold rename at h
  cases hres : d.resolve (cfg.locate name) with
  | error e => simp [hres, bind, Except.bind] at h
  | ok pe =>
    obtain ⟨p, e⟩ := pe
    obtain ⟨-, rfl, he⟩ := resolve_eq_ok hq hn hres
    cases ht : d.target (cfg.locate new) with
    | error e => simp [hres, ht, bind, Except.bind] at h
    | ok t =>
      obtain ⟨hl, rfl⟩ := target_locate hq hnew ht
      cases e with
      | folder => simp [hres, ht, bind, Except.bind] at h
      | file id =>
        refine ⟨id, he, ?_⟩
        by_cases hs : 255 < new.utf8ByteSize
        · simp [hres, ht, lookUp, hs, bind, Except.bind] at h
        · refine ⟨⟨Nat.le_of_not_lt hs, hl⟩, ?_⟩
          simp only [hres, ht, lookUp, hs, if_false, bind, Except.bind] at h
          split at h
          · cases h
          · rename_i hne
            exact ⟨fun e => hne e, (Except.ok.inj h).symm⟩

theorem remove_eq_ok (h : d.remove (cfg.locate name) = .ok d') :
    ∃ id, d.names.get? (q ++ [name]) = some (.file id) ∧
      d' = { d with names := d.names.erase (q ++ [name]) } := by
  unfold remove at h
  cases hres : d.resolve (cfg.locate name) with
  | error e => simp [hres, bind, Except.bind] at h
  | ok pe =>
    obtain ⟨p, e⟩ := pe
    obtain ⟨-, rfl, he⟩ := resolve_eq_ok hq hn hres
    cases e with
    | folder => simp [hres, bind, Except.bind] at h
    | file id =>
      simp only [hres, bind, Except.bind] at h
      exact ⟨id, he, (Except.ok.inj h).symm⟩

end locating

/-- A name stands for the same file with the same content, or for what it stood for, as before. -/
structure SameFile (q : Place) (name : String) (d d' : Disk) : Prop where
  names : d'.names.get? (q ++ [name]) = d.names.get? (q ++ [name])
  content : ∀ id, d.names.get? (q ++ [name]) = some (.file id) → d'.content id = d.content id

namespace SameFile

theorem refl (q : Place) (name : String) (d : Disk) : SameFile q name d d := ⟨rfl, fun _ _ => rfl⟩

theorem trans {d'' : Disk} (h : SameFile q name d d') (h' : SameFile q name d' d'') :
    SameFile q name d d'' where
  names := h'.names.trans h.names
  content id hid := by rw [h'.content id (h.names ▸ hid), h.content id hid]

theorem holds {b : Bytes} (h : SameFile q name d d') (hb : d.Holds (q ++ [name]) b) :
    d'.Holds (q ++ [name]) b := by
  obtain ⟨id, x, hn, hc, hx⟩ := hb
  exact ⟨id, x, h.names ▸ hn, (h.content id hn).trans hc, hx⟩

end SameFile

theorem Changes.sameFile {F : Footprint} (h : Changes F d d') (hs : d.Sound)
    (hp : q ++ [name] ∉ F.places)
    (hf : ∀ id ∈ F.files, d.names.get? (q ++ [name]) ≠ some (.file id)) :
    SameFile q name d d' where
  names := h.names _ hp
  content id hn := by
    refine h.contents id (hs.there _ id hn) (fun hm => hf id hm hn) ?_
    intro p hpF hn'
    exact hp (hs.single p _ id hn' hn ▸ hpF)

/-- A file that has a name, but none that the log gives to its files. -/
def Apart (d : Disk) (q : Place) (id : FileId) : Prop :=
  ∃ p, d.names.get? p = some (.file id) ∧ ∀ name, LogName name → p ≠ q ++ [name]

namespace Apart

theorem ne {id id' : FileId} (h : d.Apart q id) (hs : d.Sound) (hl : LogName name)
    (hn : d.names.get? (q ++ [name]) = some (.file id')) : id ≠ id' := by
  obtain ⟨p, hp, hne⟩ := h
  rintro rfl
  exact hne name hl (hs.single p _ id hp hn)

theorem changes {F : Footprint} {id : FileId} (h : d.Apart q id) (hs : d.Sound)
    (hF : F.InLog q d) (hc : Changes F d d') : d'.Apart q id ∧ d'.content id = d.content id := by
  obtain ⟨p, hp, hne⟩ := h
  have hpF : p ∉ F.places := fun hm => by
    obtain ⟨name, hl, he⟩ := hF.places p hm
    exact hne name hl he
  refine ⟨⟨p, (hc.names p hpF).trans hp, hne⟩, hc.contents id (hs.there p id hp) ?_ ?_⟩
  · intro hm
    obtain ⟨name, hl, hn⟩ := hF.files id hm
    exact Apart.ne ⟨p, hp, hne⟩ hs hl hn rfl
  · intro r hr hn
    exact hpF (hs.single p r id hp hn ▸ hr)

end Apart

end Disk

end RecordLog
