import Mathlib
import RecordLog.Proofs.Folder

/-!
# Making folders

Making the folder of a log changes nothing if it is there. If not, folders are all that is new, and
the path leads to the last of them.
-/

namespace RecordLog

namespace Disk

variable {d d' d'' : Disk} {p q r : Place} {path : Path} {name : String}

theorem descend_of_empty (h : path.all (· = "") = true) : d.descend p path = .ok p := by
  induction path with
  | nil => rfl
  | cons part rest ih =>
    simp only [List.all_cons, Bool.and_eq_true, decide_eq_true_eq] at h
    rw [descend, if_pos (.inl h.1), ih (by simpa using h.2)]

theorem follow_of_descend (h : d.descend p path = .ok r) :
    d.follow p path = .ok (.folder r) ∨
      ∃ q name slashed, d.follow p path = .ok (.name q name slashed) ∧ d.into q name = .ok r := by
  induction path generalizing p with
  | nil =>
    cases h
    exact .inl rfl
  | cons part rest ih =>
    rw [descend] at h
    rw [follow]
    by_cases hs : Path.Stays part
    · rw [if_pos hs] at h ⊢
      exact ih h
    rw [if_neg hs] at h ⊢
    by_cases hu : part = ".."
    · rw [if_pos hu] at h ⊢
      exact ih h
    rw [if_neg hu] at h ⊢
    cases hi : d.into p part with
    | error e => simp [hi, bind, Except.bind] at h
    | ok s =>
      simp only [hi, bind, Except.bind] at h ⊢
      by_cases he : rest.all (· = "") = true
      · rw [descend_of_empty he] at h
        cases h
        exact .inr ⟨p, part, _, by rw [if_pos he], hi⟩
      · rw [if_neg he]
        exact ih h

theorem into_eq_ok (h : d.into p name = .ok q) :
    name.utf8ByteSize ≤ 255 ∧ d.names.get? (p ++ [name]) = some .folder ∧ q = p ++ [name] := by
  unfold into lookUp at h
  by_cases hl : 255 < name.utf8ByteSize
  · simp [hl, bind, Except.bind] at h
  · simp only [hl, if_false, bind, Except.bind] at h
    split at h
    · cases h
    · cases h
    · rename_i hn
      cases h
      exact ⟨Nat.le_of_not_lt hl, hn, rfl⟩

theorem target_of_enter (h : d.enter path = .ok q) : d.target path = d.follow [] path := by
  obtain ⟨hn, hl, -⟩ := check_of_enter h
  simp [target, check, hn, hl, bind, Except.bind]

theorem ensureFolder_of_enter (h : d.enter path = .ok q) : d.ensureFolder path = .ok d := by
  obtain ⟨e, he⟩ : ∃ e, d.createFolder path = .error e := by
    obtain ⟨-, -, hd⟩ := check_of_enter h
    rcases follow_of_descend hd with hf | ⟨r, name, slashed, hf, hi⟩
    · exact ⟨_, by rw [createFolder, target_of_enter h, hf]; rfl⟩
    · obtain ⟨hs, hn, -⟩ := into_eq_ok hi
      refine ⟨IoCause.alreadyExists, ?_⟩
      rw [createFolder, target_of_enter h, hf]
      simp [lookUp_of_short hs, hn, bind, Except.bind]
  rw [ensureFolder, he]
  simp only [h]

theorem createFolders_of_enter (h : d.enter path = .ok q) : d.createFolders path = (none, d) := by
  rw [createFolders, ensureFolder_of_enter h]

theorem descend_moves (path : Path) : d.descend p path.moves = d.descend p path := by
  induction path generalizing p with
  | nil => rfl
  | cons part rest ih =>
    by_cases hs : Path.Stays part
    · rw [descend, if_pos hs, ← ih]
      simp [Path.moves, hs]
    · have hm : Path.moves (part :: rest) = part :: Path.moves rest := by simp [Path.moves, hs]
      rw [hm, descend, descend, if_neg hs, if_neg hs]
      split
      · exact ih
      · cases d.into p part with
        | error e => rfl
        | ok s => exact ih

theorem enter_moves (h : d.enter path = .ok q) : d.enter path.moves = .ok q := by
  obtain ⟨hn, hl, hd⟩ := check_of_enter h
  have hn' : path.moves.hasNul = false := by
    rw [Path.hasNul, List.any_eq_false] at hn ⊢
    exact fun part hp => hn part (List.mem_of_mem_filter hp)
  have hl' : path.moves.tooLong = false := Path.tooLong_of_sublist List.filter_sublist hl
  simp [enter, check, hn', hl', bind, Except.bind, descend_moves, hd]

/-- Folders are all that is new. -/
structure Furnished (d d' : Disk) : Prop where
  files : d'.files = d.files
  kept : ∀ p e, d.names.get? p = some e → d'.names.get? p = some e
  fresh : ∀ p e, d'.names.get? p = some e → d.names.get? p = some e ∨ e = .folder

namespace Furnished

theorem refl (d : Disk) : Furnished d d := ⟨rfl, fun _ _ h => h, fun _ _ h => .inl h⟩

theorem trans (h : Furnished d d') (h' : Furnished d' d'') : Furnished d d'' where
  files := h'.files.trans h.files
  kept p e hp := h'.kept p e (h.kept p e hp)
  fresh p e hp := (h'.fresh p e hp).elim (h.fresh p e) .inr

theorem file (h : Furnished d d') {id : FileId} (hp : d'.names.get? p = some (.file id)) :
    d.names.get? p = some (.file id) :=
  (h.fresh p _ hp).resolve_right (by simp)

theorem sound (h : Furnished d d') (hs : d.Sound) : d'.Sound where
  there p id hp := h.files ▸ hs.there p id (h.file hp)
  single p q id hp hq := hs.single p q id (h.file hp) (h.file hq)
  ordinary id := by
    rw [content, h.files]
    exact hs.ordinary id

end Furnished

theorem descend_of_follow {slashed : Bool}
    (hf : ∀ p, d.names.get? p = some .folder → d'.names.get? p = some .folder)
    (h : d.follow p path = .ok (.name q name slashed)) (hs : name.utf8ByteSize ≤ 255)
    (hn : d'.names.get? (q ++ [name]) = some .folder) :
    d'.descend p path = .ok (q ++ [name]) := by
  induction path generalizing p with
  | nil => simp [follow] at h
  | cons part rest ih =>
    rw [follow] at h
    rw [descend]
    by_cases hst : Path.Stays part
    · rw [if_pos hst] at h ⊢
      exact ih h
    rw [if_neg hst] at h ⊢
    by_cases hu : part = ".."
    · rw [if_pos hu] at h ⊢
      exact ih h
    rw [if_neg hu] at h ⊢
    by_cases he : rest.all (· = "") = true
    · rw [if_pos he] at h
      cases h
      have hi : d'.into q name = .ok (q ++ [name]) := by
        simp [into, lookUp_of_short hs, hn, bind, Except.bind]
      simp only [hi, bind, Except.bind]
      exact descend_of_empty he
    · rw [if_neg he] at h
      cases hi : d.into p part with
      | error e => simp [hi, bind, Except.bind] at h
      | ok s =>
        simp only [hi, bind, Except.bind] at h
        simp only [into_of_folders hf hi, bind, Except.bind]
        exact ih h

theorem createFolder_eq_ok (h : d.createFolder path = .ok d') :
    (∃ q, d'.enter path = .ok q) ∧ Furnished d d' := by
  cases hc : check path with
  | error e => simp [createFolder, target, hc, bind, Except.bind] at h
  | ok u =>
    have ht : d.target path = d.follow [] path := by simp [target, hc, bind, Except.bind]
    rw [createFolder, ht] at h
    cases hfol : d.follow [] path with
    | error e => simp [hfol, bind, Except.bind] at h
    | ok t =>
      rw [hfol] at h
      cases t with
      | folder r => simp [bind, Except.bind] at h
      | name r name slashed =>
        by_cases hs : 255 < name.utf8ByteSize
        · simp [lookUp, hs, bind, Except.bind] at h
        have hs := Nat.le_of_not_lt hs
        simp only [lookUp_of_short hs, bind, Except.bind] at h
        split at h
        · cases h
        rename_i hnone
        cases h
        have hfurnished : Furnished d { d with names := d.names.insert (r ++ [name]) .folder } := by
          refine ⟨rfl, fun p e hp => ?_, fun p e hp => ?_⟩
          · rw [Table.get?_insert, if_neg]
            · exact hp
            · rintro rfl
              rw [hnone] at hp
              cases hp
          · rw [Table.get?_insert] at hp
            split at hp
            · exact .inr (Option.some.inj hp).symm
            · exact .inl hp
        refine ⟨⟨r ++ [name], ?_⟩, hfurnished⟩
        simp only [enter, hc, bind, Except.bind]
        exact descend_of_follow (fun p hp => hfurnished.kept p _ hp) hfol hs
          (by simp [Table.get?_insert])

theorem ensureFolder_eq_ok (h : d.ensureFolder path = .ok d') :
    (∃ q, d'.enter path = .ok q) ∧ Furnished d d' := by
  unfold ensureFolder at h
  split at h
  · rename_i hc
    cases h
    exact createFolder_eq_ok hc
  · split at h
    · rename_i q hq
      cases h
      exact ⟨⟨q, hq⟩, .refl d⟩
    · cases h

/-- Once a folder could be made it is there, and folders are all that is new. -/
theorem createFolders_eq_none (h : d.createFolders path = (none, d')) :
    (∃ q, d'.enter path = .ok q) ∧ Furnished d d' := by
  induction hn : path.length using Nat.strong_induction_on generalizing path d' with
  | _ n ih =>
    subst hn
    rw [createFolders] at h
    split at h
    · rename_i he
      cases h
      exact ensureFolder_eq_ok he
    · split at h
      · split at h
        · cases h
        · rename_i above hp
          split at h
          · cases h
          · rename_i d₁ habove
            obtain ⟨-, hf₁⟩ := ih _ (Path.length_lt_of_parent? hp) habove rfl
            split at h
            · rename_i he
              cases h
              obtain ⟨hq, hf₂⟩ := ensureFolder_eq_ok he
              exact ⟨hq, hf₁.trans hf₂⟩
            · cases h
      · cases h

end Disk

end RecordLog
