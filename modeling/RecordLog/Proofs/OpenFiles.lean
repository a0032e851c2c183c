import Mathlib
import RecordLog.Proofs.Calls
import RecordLog.Proofs.Folder

/-!
# Reading and writing open files

A write where the head stands behind the last byte puts its bytes there, and one that a fault
strikes leaves at least what was there before. `World.rewrite` is what either makes of a world.
-/

namespace RecordLog

namespace World

def rewrite (w : World) (id : FileId) (x : Sparse) (head : HeadId) (offset : Nat) : World :=
  { w with disk := w.disk.setContent id (.bytes x), heads := w.heads.set head offset }

variable {F G : Footprint} {w w' : World} {id : FileId} {x : Sparse} {head : HeadId} {offset : Nat}

@[simp] theorem names_rewrite : (w.rewrite id x head offset).disk.names = w.disk.names := rfl

theorem content_rewrite (h : id < w.disk.files.length) :
    (w.rewrite id x head offset).disk.content id = .bytes x := by
  rw [rewrite, Disk.content_setContent, if_pos ⟨rfl, h⟩]

theorem heads_rewrite (h : head < w.heads.length) :
    (w.rewrite id x head offset).heads[head]? = some offset := by
  simp [rewrite, h]

theorem changes_rewrite (hh : head ∈ F.heads)
    (h : id ∈ F.files ∨ ∃ p ∈ F.places, w.disk.names.get? p = some (.file id)) :
    Changes F w (w.rewrite id x head offset) where
  disk := Disk.Changes.setContent (by simp) h
  stores := rfl
  marks := rfl
  heads i _ hi := by
    have : head ≠ i := fun e => hi (e ▸ hh)
    simp [rewrite, this]
  headsGrown := by simp [rewrite]
  returns h := h
  calm h := h

theorem Changes.forget (h : Changes F w w') (hp : F.places ⊆ G.places) (hf : F.files ⊆ G.files)
    (hh : ∀ i ∈ F.heads, i < w.heads.length → i ∈ G.heads) : Changes G w w' where
  disk := h.disk.mono hp hf
  stores := h.stores
  marks := h.marks
  heads i hi hG := h.heads i hi fun hF => hG (hh i hF hi)
  headsGrown := h.headsGrown
  returns := h.returns
  calm := h.calm

end World

namespace Op

open World

variable {w : World} {id : FileId} {head : HeadId} {x : Sparse} {data : Bytes} {operation : String}

theorem ends_addHead (offset : Nat) (w : World) :
    Ends (addHead offset) w (fun i w' => i = w.heads.length ∧
      w' = { w with heads := w.heads ++ [offset] }) fun _ _ => False :=
  ends_of_eq_ok rfl ⟨rfl, rfl⟩

theorem changes_addHead {F : Footprint} (offset : Nat) (w : World) :
    World.Changes F w { w with heads := w.heads ++ [offset] } where
  disk := Disk.Changes.refl F w.disk
  stores := rfl
  marks := rfl
  heads i hi _ := List.getElem?_append_left hi
  headsGrown := by simp
  returns h := h
  calm h := h

theorem offsetOf_eq {offset : Nat} (hh : w.heads[head]? = some offset) :
    offsetOf head w = .ok offset w := by
  have : w.heads.getD head 0 = offset := by rw [List.getD_eq_getElem?_getD, hh]; rfl
  rw [← this]
  rfl

theorem ends_putBytes {offset : Nat} (hx : w.disk.content id = .bytes x)
    (hh : w.heads[head]? = some offset) :
    Ends (putBytes operation id head data) w
      (fun _ w' => w' = w.rewrite id (x.overlay offset data) head (offset + data.length))
      fun _ _ => False := by
  refine Ends.bind (P := fun o w' => o = offset ∧ w' = w) (F := fun _ _ => False)
    (ends_of_eq_ok (offsetOf_eq hh) ⟨rfl, rfl⟩) ?_ fun _ _ hF => hF
  rintro o w' ⟨ho, hw⟩
  rw [ho, hw]
  have hwrite : Disk.write w.disk id offset data =
      .ok (w.disk.setContent id (.bytes (x.overlay offset data))) := by
    simp [Disk.write, hx, Content.write, Except.map]
  refine (ends_changeDisk _ _ w).bind ?_ ?_
  · rintro _ _ ⟨d, hd, rfl⟩
    rw [hwrite] at hd
    cases hd
    exact ends_modify rfl
  · rintro _ _ ⟨rfl, cause, hc, -⟩
    rw [hwrite] at hc
    cases hc

theorem toBytes_overlay_size (x : Sparse) (data : Bytes) :
    (x.overlay x.size data).toBytes = x.toBytes ++ data := by
  rw [Sparse.toBytes_overlay (Nat.le_refl _), ← Sparse.length_toBytes, List.take_length,
    List.drop_of_length_le (Nat.le_add_right _ _), List.append_nil]

/-- A write behind the last byte. -/
theorem ends_writeFile (operation : String) (data : Bytes) (hx : w.disk.content id = .bytes x)
    (hh : w.heads[head]? = some x.size) :
    Ends (writeFile operation id head data) w
      (fun _ w' => ∃ w₁ y, Idle w w₁ ∧ w' = w₁.rewrite id y head (x.size + data.length) ∧
        y.toBytes = x.toBytes ++ data)
      fun stop w' => ∃ w₁ y n, Idle w w₁ ∧ w' = w₁.rewrite id y head n ∧
        x.toBytes <+: y.toBytes ∧ Failed w stop ∧ ¬ w.Calm := by
  refine (ends_strike .write w).bind ?_ fun _ _ hF => hF.elim
  rintro (_ | f) w₁ ⟨hi, hf⟩
  · refine (ends_putBytes (hi.disk ▸ hx) (hi.heads ▸ hh)).mono ?_ fun _ _ hF => hF.elim
    rintro _ _ rfl
    exact ⟨w₁, _, hi, rfl, toBytes_overlay_size x data⟩
  · obtain ⟨hc, hr⟩ := hf f rfl
    refine (ends_putBytes (hi.disk ▸ hx) (hi.heads ▸ hh)).bind ?_ fun _ _ hF => hF.elim
    rintro _ _ rfl
    refine Ends.bind (P := fun _ _ => False) (ends_struck fun stop hs => ?_)
      (fun _ _ hF => hF.elim) fun _ _ h => h
    refine ⟨w₁, _, _, hi, rfl, ?_, fun hw => ⟨_, hs (hr hw)⟩, hc⟩
    rw [toBytes_overlay_size]
    exact List.prefix_append _ _

theorem ends_discard {cfg : Config} {q : Place} {name : String} {F : Footprint}
    (hq : w.disk.enter cfg.path = .ok q) (hn : Path.Plain name) (hF : q ++ [name] ∈ F.places)
    (hr : w.Returns) :
    Ends (discard (cfg.locate name)) w (fun _ w' => World.Changes F w w' ∧
        w'.heads = w.heads ∧ w'.disk.files = w.disk.files ∧
        (w'.disk.names.get? (q ++ [name]) = w.disk.names.get? (q ++ [name]) ∨
          w'.disk.names.get? (q ++ [name]) = none))
      fun _ _ => False := by
  refine (ends_strike .remove w).bind ?_ fun _ _ hF => hF.elim
  rintro (_ | f) w₁ ⟨hi, hf⟩
  · refine ends_modify ?_
    cases hd : w₁.disk.remove (cfg.locate name) with
    | error e => exact ⟨hi.changes, hi.heads, by rw [hi.disk], .inl (by rw [hi.disk])⟩
    | ok d =>
      obtain ⟨id, hid, rfl⟩ := Disk.remove_eq_ok (hi.disk ▸ hq) hn hd
      refine ⟨hi.changes.trans (World.Changes.ofDisk (Disk.Changes.erase hF hid)), hi.heads,
        by rw [hi.disk], .inr ?_⟩
      simp [Table.get?_erase]
  · obtain ⟨-, hcr⟩ := hf f rfl
    simp only [hcr hr, Bool.false_eq_true, if_false]
    exact ends_pure ⟨hi.changes, hi.heads, by rw [hi.disk], .inl (by rw [hi.disk])⟩

end Op

end RecordLog
