import Mathlib
import RecordLog.World

/-!
# What an operation can change on a disk

A footprint lists places, files and heads. `Disk.Changes` says that a disk became another one and
that nothing changed outside a footprint: no name at another place, and no content of a file that
is neither listed nor found at a listed place. Folders stay what they are, and a sound disk stays
sound: a file has at most one name, and none is a device.
-/

namespace RecordLog

/-- Where an operation may change something. -/
structure Footprint where
  places : List Place := []
  files : List FileId := []
  heads : List HeadId := []

namespace Footprint

structure Le (F G : Footprint) : Prop where
  places : F.places ⊆ G.places
  files : F.files ⊆ G.files
  heads : F.heads ⊆ G.heads

end Footprint

namespace Disk

/-- A disk as a file system keeps it. -/
structure Sound (d : Disk) : Prop where
  there : ∀ p id, d.names.get? p = some (.file id) → id < d.files.length
  single : ∀ p q id, d.names.get? p = some (.file id) → d.names.get? q = some (.file id) → p = q
  ordinary : ∀ id, d.content id ≠ .full

def Holds (d : Disk) (p : Place) (b : Bytes) : Prop :=
  ∃ id x, d.names.get? p = some (.file id) ∧ d.content id = .bytes x ∧ x.toBytes = b

theorem content_setContent (d : Disk) (id j : FileId) (c : Content) :
    (d.setContent id c).content j =
      if j = id ∧ id < d.files.length then c else d.content j := by
  simp only [content, setContent, List.getD_eq_getElem?_getD, List.getElem?_set]
  by_cases h : id = j
  · subst h
    by_cases hl : id < d.files.length
    · simp [hl]
    · simp [hl]
  · simp [h, Ne.symm h]

@[simp] theorem names_setContent (d : Disk) (id : FileId) (c : Content) :
    (d.setContent id c).names = d.names := rfl

@[simp] theorem length_files_setContent (d : Disk) (id : FileId) (c : Content) :
    (d.setContent id c).files.length = d.files.length := by
  simp [setContent]

theorem content_create (d : Disk) (p : Place) (c : Content) (j : Nat) :
    (d.create p c).2.content j = if j = d.files.length then c else d.content j := by
  simp only [content, create, List.getD_eq_getElem?_getD]
  by_cases h : j = d.files.length
  · subst h
    simp
  · by_cases hl : j < d.files.length
    · simp [List.getElem?_append_left hl, h]
    · rw [List.getElem?_eq_none (by simp; omega), List.getElem?_eq_none (by omega)]
      simp [h]

theorem names_create (d : Disk) (p q : Place) (c : Content) :
    (d.create p c).2.names.get? q =
      if p = q then some (.file d.files.length) else d.names.get? q :=
  Table.get?_insert _ _ _ _

/-- Nothing changed from one disk to the other outside a footprint. -/
structure Changes (F : Footprint) (d d' : Disk) : Prop where
  sound : d.Sound → d'.Sound
  folders : ∀ p, d'.names.get? p = some .folder ↔ d.names.get? p = some .folder
  names : ∀ p, p ∉ F.places → d'.names.get? p = d.names.get? p
  grown : d.files.length ≤ d'.files.length
  origin : ∀ p id, p ∈ F.places → d'.names.get? p = some (.file id) → id < d.files.length →
    ∃ q ∈ F.places, d.names.get? q = some (.file id)
  contents : ∀ id, id < d.files.length → id ∉ F.files →
    (∀ p ∈ F.places, d.names.get? p ≠ some (.file id)) → d'.content id = d.content id

namespace Changes

variable {F G : Footprint} {d d' d'' : Disk}

theorem refl (F : Footprint) (d : Disk) : Changes F d d where
  sound := id
  folders _ := Iff.rfl
  names _ _ := rfl
  grown := Nat.le_refl _
  origin p _ hp h _ := ⟨p, hp, h⟩
  contents _ _ _ _ := rfl

theorem trans (h : Changes F d d') (h' : Changes F d' d'') : Changes F d d'' where
  sound hs := h'.sound (h.sound hs)
  folders p := (h'.folders p).trans (h.folders p)
  names p hp := (h'.names p hp).trans (h.names p hp)
  grown := h.grown.trans h'.grown
  origin p id hp hn hid := by
    obtain ⟨q, hq, hn'⟩ := h'.origin p id hp hn (hid.trans_le h.grown)
    exact h.origin q id hq hn' hid
  contents id hid hf hp := by
    rw [h'.contents id (hid.trans_le h.grown) hf, h.contents id hid hf hp]
    intro p hpF hn
    obtain ⟨q, hq, hn'⟩ := h.origin p id hpF hn hid
    exact hp q hq hn'

theorem mono (h : Changes F d d') (hpl : F.places ⊆ G.places) (hfl : F.files ⊆ G.files) :
    Changes G d d' where
  sound := h.sound
  folders := h.folders
  names p hp := h.names p fun hm => hp (hpl hm)
  grown := h.grown
  origin p id hp hn hid := by
    by_cases hF : p ∈ F.places
    · obtain ⟨q, hq, hn'⟩ := h.origin p id hF hn hid
      exact ⟨q, hpl hq, hn'⟩
    · exact ⟨p, hp, h.names p hF ▸ hn⟩
  contents id hid hf hp :=
    h.contents id hid (fun hm => hf (hfl hm)) fun p hm => hp p (hpl hm)

theorem setContent {id : FileId} {c : Content} (hc : c ≠ .full)
    (h : id ∈ F.files ∨ ∃ p ∈ F.places, d.names.get? p = some (.file id)) :
    Changes F d (d.setContent id c) where
  sound hs := {
    there := fun p j hn => by simpa using hs.there p j hn
    single := hs.single
    ordinary := fun j => by
      rw [content_setContent]
      split
      · exact hc
      · exact hs.ordinary j }
  folders _ := Iff.rfl
  names _ _ := rfl
  grown := by simp
  origin p _ hp hn _ := ⟨p, hp, hn⟩
  contents j _ hf hp := by
    rw [content_setContent, if_neg]
    rintro ⟨rfl, -⟩
    rcases h with h | ⟨p, hm, hn⟩
    · exact hf h
    · exact hp p hm hn

theorem create {p : Place} {c : Content} (hc : c ≠ .full) (hp : p ∈ F.places)
    (hn : d.names.get? p = none) : Changes F d (d.create p c).2 where
  sound hs := {
    there := fun q id h => by
      rw [names_create] at h
      have hl : (d.create p c).2.files.length = d.files.length + 1 := by simp [Disk.create]
      rw [hl]
      split at h
      · cases h
        exact Nat.lt_succ_self _
      · exact Nat.lt_succ_of_lt (hs.there q id h)
    single := fun q r id hq hr => by
      rw [names_create] at hq hr
      split at hq <;> split at hr
      · simp_all
      · cases hq
        exact absurd (hs.there r _ hr) (Nat.lt_irrefl _)
      · cases hr
        exact absurd (hs.there q _ hq) (Nat.lt_irrefl _)
      · exact hs.single q r id hq hr
    ordinary := fun id => by
      rw [content_create]
      split
      · exact hc
      · exact hs.ordinary id }
  folders q := by
    rw [names_create]
    split
    · rename_i h
      subst h
      simp [hn]
    · exact Iff.rfl
  names q hq := by
    rw [names_create, if_neg]
    rintro rfl
    exact hq hp
  grown := by simp [Disk.create]
  origin q id hq h hid := by
    rw [names_create] at h
    split at h
    · cases h
      exact absurd hid (Nat.lt_irrefl _)
    · exact ⟨q, hq, h⟩
  contents id hid _ _ := by
    rw [content_create, if_neg (Nat.ne_of_lt hid)]

theorem erase {p : Place} {id : FileId} (hp : p ∈ F.places)
    (hn : d.names.get? p = some (.file id)) :
    Changes F d { d with names := d.names.erase p } where
  sound hs := {
    there := fun q j h => by
      rw [Table.get?_erase] at h
      split at h
      · simp at h
      · exact hs.there q j h
    single := fun q r j hq hr => by
      rw [Table.get?_erase] at hq hr
      split at hq
      · simp at hq
      split at hr
      · simp at hr
      · exact hs.single q r j hq hr
    ordinary := hs.ordinary }
  folders q := by
    rw [Table.get?_erase]
    split
    · rename_i h
      subst h
      simp [hn]
    · exact Iff.rfl
  names q hq := by
    rw [Table.get?_erase, if_neg]
    rintro rfl
    exact hq hp
  grown := Nat.le_refl _
  origin q j hq h _ := by
    rw [Table.get?_erase] at h
    split at h
    · simp at h
    · exact ⟨q, hq, h⟩
  contents _ _ _ _ := rfl

theorem move {p q : Place} {id : FileId} (hp : p ∈ F.places) (hq : q ∈ F.places)
    (hn : d.names.get? p = some (.file id)) (hf : d.names.get? q ≠ some .folder) :
    Changes F d { d with names := (d.names.erase p).insert q (.file id) } where
  sound hs := {
    there := fun r j h => by
      rw [Table.get?_insert, Table.get?_erase] at h
      split at h
      · simp only [Option.some.injEq, Entry.file.injEq] at h
        exact h ▸ hs.there p id hn
      split at h
      · simp at h
      · exact hs.there r j h
    single := fun r s j hr hs' => by
      rw [Table.get?_insert, Table.get?_erase] at hr hs'
      split at hr <;> split at hs'
      · simp_all
      · simp only [Option.some.injEq, Entry.file.injEq] at hr
        split at hs'
        · simp at hs'
        · rename_i hne
          exact absurd (hs.single p s j (hr ▸ hn) hs') hne
      · simp only [Option.some.injEq, Entry.file.injEq] at hs'
        split at hr
        · simp at hr
        · rename_i hne
          exact absurd (hs.single p r j (hs' ▸ hn) hr) hne
      · split at hr
        · simp at hr
        split at hs'
        · simp at hs'
        · exact hs.single r s j hr hs'
    ordinary := hs.ordinary }
  folders r := by
    rw [Table.get?_insert, Table.get?_erase]
    split
    · rename_i h
      subst h
      simp [hf]
    split
    · rename_i h
      subst h
      simp [hn]
    · exact Iff.rfl
  names r hr := by
    rw [Table.get?_insert, Table.get?_erase, if_neg, if_neg]
    · rintro rfl
      exact hr hp
    · rintro rfl
      exact hr hq
  grown := Nat.le_refl _
  origin r j hr h _ := by
    rw [Table.get?_insert, Table.get?_erase] at h
    split at h
    · simp only [Option.some.injEq, Entry.file.injEq] at h
      exact ⟨p, hp, h ▸ hn⟩
    split at h
    · simp at h
    · exact ⟨r, hr, h⟩
  contents _ _ _ _ := rfl

theorem holds (h : Changes F d d') (hs : d.Sound) {p : Place} {b : Bytes} (hp : p ∉ F.places)
    (hf : ∀ id ∈ F.files, d.names.get? p ≠ some (.file id)) (hb : d.Holds p b) :
    d'.Holds p b := by
  obtain ⟨id, x, hn, hc, hx⟩ := hb
  refine ⟨id, x, (h.names p hp).trans hn, ?_, hx⟩
  rw [h.contents id (hs.there p id hn) (fun hm => hf id hm hn), hc]
  intro q hq hn'
  exact hp (hs.single p q id hn hn' ▸ hq)

end Changes

end Disk

end RecordLog
