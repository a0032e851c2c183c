import Mathlib
import RecordLog.Proofs.Ends
import RecordLog.Proofs.Footprint

/-!
# What calls do to a world

A call of a compressor or a cipher leaves a world as it is but for the record of calls, which
`World.Idle` says. A file operation keeps to its footprint, which `World.Changes` says. A call
fails for a reason of its own or because a fault strikes it; in a calm world there is none, and
where every call returns a stop is an error.
-/

namespace RecordLog

namespace World

def Returns (w : World) : Prop := ∀ h f, w.faults.get? h = some f → f.crash = false

def Calm (w : World) : Prop := w.faults = {}

theorem Calm.returns {w : World} (h : w.Calm) : w.Returns := by
  intro k f hf
  rw [show w.faults = {} from h, Table.get?_empty] at hf
  cases hf

structure Idle (w w' : World) : Prop where
  disk : w'.disk = w.disk
  stores : w'.stores = w.stores
  marks : w'.marks = w.marks
  heads : w'.heads = w.heads
  returns : w.Returns → w'.Returns
  calm : w.Calm → w'.Calm

theorem Idle.refl (w : World) : Idle w w := ⟨rfl, rfl, rfl, rfl, id, id⟩

theorem Idle.trans {w w' w'' : World} (h : Idle w w') (h' : Idle w' w'') : Idle w w'' :=
  ⟨h'.disk.trans h.disk, h'.stores.trans h.stores, h'.marks.trans h.marks,
    h'.heads.trans h.heads, h'.returns ∘ h.returns, h'.calm ∘ h.calm⟩

/-- Nothing happened outside a footprint, and nothing to the indexes and the watermarks. -/
structure Changes (F : Footprint) (w w' : World) : Prop where
  disk : w.disk.Changes F w'.disk
  stores : w'.stores = w.stores
  marks : w'.marks = w.marks
  heads : ∀ i < w.heads.length, i ∉ F.heads → w'.heads[i]? = w.heads[i]?
  headsGrown : w.heads.length ≤ w'.heads.length
  returns : w.Returns → w'.Returns
  calm : w.Calm → w'.Calm

variable {F G : Footprint} {w w' w'' : World}

theorem Idle.changes (h : Idle w w') : Changes F w w' where
  disk := h.disk ▸ Disk.Changes.refl F w.disk
  stores := h.stores
  marks := h.marks
  heads i _ _ := by rw [h.heads]
  headsGrown := by rw [h.heads]
  returns := h.returns
  calm := h.calm

namespace Changes

theorem trans (h : Changes F w w') (h' : Changes F w' w'') : Changes F w w'' where
  disk := h.disk.trans h'.disk
  stores := h'.stores.trans h.stores
  marks := h'.marks.trans h.marks
  heads i hi hF := by rw [h'.heads i (hi.trans_le h.headsGrown) hF, h.heads i hi hF]
  headsGrown := h.headsGrown.trans h'.headsGrown
  returns := h'.returns ∘ h.returns
  calm := h'.calm ∘ h.calm

theorem mono (h : Changes F w w') (hle : F.Le G) : Changes G w w' where
  disk := h.disk.mono hle.places hle.files
  stores := h.stores
  marks := h.marks
  heads i hi hG := h.heads i hi fun hF => hG (hle.heads hF)
  headsGrown := h.headsGrown
  returns := h.returns
  calm := h.calm

theorem ofDisk {disk : Disk} (h : w.disk.Changes F disk) : Changes F w { w with disk } where
  disk := h
  stores := rfl
  marks := rfl
  heads _ _ _ := rfl
  headsGrown := Nat.le_refl _
  returns := id
  calm := id

end Changes

end World

/-- A stop that is an error if every call returned. -/
def Failed (w : World) (stop : Stop) : Prop := w.Returns → ∃ e, stop = .error e

theorem Failed.error (w : World) (e : Error) : Failed w (.error e) := fun _ => ⟨e, rfl⟩

namespace Op

open World

variable {α : Type} {w : World}

theorem ends_strike (h : Hook) (w : World) :
    Ends (strike h) w
      (fun r w' => Idle w w' ∧ ∀ f, r = some f → ¬ w.Calm ∧ (w.Returns → f.crash = false))
      fun _ _ => False := by
  cases hf : w.faults.get? h with
  | none =>
    refine ends_of_eq_ok (a := none) (t := w) (by simp only [strike, hf]) ⟨Idle.refl w, ?_⟩
    intro f hr
    cases hr
  | some f =>
    have hc : ¬ w.Calm := fun hc => by
      rw [show w.faults = {} from hc, Table.get?_empty] at hf
      cases hf
    cases ha : f.after with
    | zero =>
      refine ends_of_eq_ok (a := some f) (t := w) (by simp only [strike, hf, ha])
        ⟨Idle.refl w, ?_⟩
      intro g hg
      cases hg
      exact ⟨hc, fun hr => hr h f hf⟩
    | succ n =>
      refine ends_of_eq_ok (a := none)
        (t := { w with faults := w.faults.insert h { f with after := n } })
        (by simp only [strike, hf, ha]) ⟨⟨rfl, rfl, rfl, rfl, ?_, fun h => absurd h hc⟩, ?_⟩
      · intro hr k g hg
        rw [Table.get?_insert] at hg
        split at hg
        · cases hg
          exact hr h f hf
        · exact hr k g hg
      · intro g hg
        cases hg

theorem ends_struck {f : Fault} {e : Error} {Q : α → World → Prop} {E : Stop → World → Prop}
    (h : ∀ stop, (f.crash = false → stop = .error e) → E stop w) :
    Ends (struck f e : Op α) w Q E := by
  refine ends_throw (h _ ?_)
  intro hc
  simp [hc]

theorem ends_unlessStruck (h : Hook) (e : Error) (w : World) :
    Ends (do
        if let some f ← strike h then
          struck f e) w (fun _ w' => Idle w w')
      fun stop w' => Idle w w' ∧ Failed w stop ∧ ¬ w.Calm := by
  refine (ends_strike h w).bind ?_ fun _ _ hF => hF.elim
  rintro (_ | f) w' ⟨hi, hf⟩
  · exact ends_pure hi
  · obtain ⟨hc, hr⟩ := hf f rfl
    exact ends_struck fun stop hs => ⟨hi, fun h => ⟨_, hs (hr h)⟩, hc⟩

theorem ends_pass (h : Hook) (w : World) :
    Ends (pass h) w (fun _ w' => Idle w w')
      fun stop w' => Idle w w' ∧ Failed w stop ∧ ¬ w.Calm :=
  ends_unlessStruck h _ w

theorem ends_passDisk (h : Hook) (operation : String) (w : World) :
    Ends (passDisk h operation) w (fun _ w' => Idle w w')
      fun stop w' => Idle w w' ∧ Failed w stop ∧ ¬ w.Calm :=
  ends_unlessStruck h _ w

theorem ends_trace (e : Event) (w : World) :
    Ends (trace e) w (fun _ w' => Idle w w') fun _ _ => False :=
  ends_modify ⟨rfl, rfl, rfl, rfl, id, id⟩

theorem ends_ofExcept (r : Except Error α) (w : World) :
    Ends (ofExcept r) w (fun a w' => w' = w ∧ r = .ok a)
      fun stop w' => w' = w ∧ ∃ e, r = .error e ∧ stop = .error e := by
  cases r with
  | ok a => exact ends_pure ⟨rfl, rfl⟩
  | error e => exact ends_throw ⟨rfl, e, rfl, rfl⟩

/-- Every call of a transform has this shape. In a calm world only the transform makes it fail. -/
theorem ends_call_eq (e : Event) (h : Hook) (r : Except Error α) (w : World) :
    Ends (do trace e; pass h; ofExcept r) w (fun a w' => Idle w w' ∧ r = .ok a)
      fun stop w' => Idle w w' ∧ Failed w stop ∧ (w.Calm → ∃ e, r = .error e) := by
  refine (ends_trace e w).bind (fun _ w₁ h₁ => ?_) fun _ _ hF => hF.elim
  refine (ends_pass h w₁).bind (fun _ w₂ h₂ => ?_) ?_
  · refine (ends_ofExcept r w₂).mono ?_ ?_
    · rintro a _ ⟨rfl, hr⟩
      exact ⟨h₁.trans h₂, hr⟩
    · rintro stop _ ⟨rfl, e, hr, he⟩
      exact ⟨h₁.trans h₂, fun _ => ⟨e, he⟩, fun _ => ⟨e, hr⟩⟩
  · rintro stop w' ⟨h₂, hf, hc⟩
    exact ⟨h₁.trans h₂, fun hr => hf (h₁.returns hr), fun hw => absurd (h₁.calm hw) hc⟩

theorem ends_call (e : Event) (h : Hook) (r : Except Error α) (w : World) :
    Ends (do trace e; pass h; ofExcept r) w (fun a w' => Idle w w' ∧ r = .ok a)
      fun stop w' => Idle w w' ∧ Failed w stop :=
  (ends_call_eq e h r w).mono (fun _ _ hQ => hQ) fun _ _ hE => ⟨hE.1, hE.2.1⟩

theorem ends_call_of_ok {e : Event} {h : Hook} {r : Except Error α} {a : α} (hr : r = .ok a)
    (w : World) :
    Ends (do trace e; pass h; ofExcept r) w (fun a' w' => a' = a ∧ Idle w w')
      fun _ w' => Idle w w' ∧ ¬ w.Calm := by
  refine (ends_call_eq e h r w).mono ?_ ?_
  · rintro a' w' ⟨hi, ha⟩
    exact ⟨Except.ok.inj (ha.symm.trans hr), hi⟩
  · rintro stop w' ⟨hi, -, hc⟩
    refine ⟨hi, fun hw => ?_⟩
    obtain ⟨e, he⟩ := hc hw
    rw [hr] at he
    cases he

theorem ends_compress (c : Compressor) (data : Bytes) (w : World) :
    Ends (compress c data) w (fun a w' => Idle w w' ∧ c.encode data = .ok a)
      fun stop w' => Idle w w' ∧ Failed w stop :=
  ends_call _ _ _ _

theorem ends_encodeAt (c : Cipher) (id : SegmentId) (offset : Nat) (data : Bytes) (w : World) :
    Ends (encodeAt c id offset data) w
      (fun a w' => Idle w w' ∧ c.encodeAt id offset data = .ok a)
      fun stop w' => Idle w w' ∧ Failed w stop :=
  ends_call _ _ _ _

theorem ends_decodeAt (c : Cipher) (id : SegmentId) (offset : Nat) (data : Bytes) (w : World) :
    Ends (decodeAt c id offset data) w
      (fun a w' => Idle w w' ∧ c.decodeAt id offset data = .ok a)
      fun stop w' => Idle w w' ∧ Failed w stop :=
  ends_call _ _ _ _

theorem ends_encrypt (c : Cipher) (data : Bytes) (w : World) :
    Ends (encrypt c data) w (fun a w' => Idle w w' ∧ ∃ nonce, c.encode nonce data = .ok a)
      fun stop w' => Idle w w' ∧ Failed w stop := by
  refine (ends_trace _ w).bind (fun _ w₁ h₁ => ?_) fun _ _ hF => hF.elim
  refine (ends_pass _ w₁).bind (fun _ w₂ h₂ => ?_)
    fun stop w' hs => ⟨h₁.trans hs.1, fun hr => hs.2.1 (h₁.returns hr)⟩
  have hn : Ends drawNonce w₂ (fun _ w' => Idle w₂ w') fun _ _ => False :=
    ends_of_eq_ok rfl ⟨rfl, rfl, rfl, rfl, id, id⟩
  refine hn.bind (fun nonce w₃ h₃ => ?_) fun _ _ hF => hF.elim
  refine (ends_ofExcept _ w₃).mono ?_ ?_
  · rintro a _ ⟨rfl, hr⟩
    exact ⟨(h₁.trans h₂).trans h₃, nonce, hr⟩
  · rintro stop _ ⟨rfl, e, -, he⟩
    exact ⟨(h₁.trans h₂).trans h₃, fun _ => ⟨e, he⟩⟩

theorem ends_drawSalt (w : World) : Ends drawSalt w (fun _ w' => Idle w w') fun _ _ => False :=
  ends_of_eq_ok rfl ⟨rfl, rfl, rfl, rfl, id, id⟩

theorem ends_onDisk (operation : String) (f : Disk → Except IoCause (α × Disk)) (w : World) :
    Ends (onDisk operation f) w (fun a w' => ∃ d, f w.disk = .ok (a, d) ∧ w' = { w with disk := d })
      fun stop w' => w' = w ∧ ∃ cause, f w.disk = .error cause ∧
        stop = .error (.io operation cause) := by
  cases hf : f w.disk with
  | ok r =>
    obtain ⟨a, d⟩ := r
    exact ends_of_eq_ok (by simp only [onDisk, hf]) ⟨d, rfl, rfl⟩
  | error cause => exact ends_of_eq_error (by simp only [onDisk, hf]) ⟨rfl, cause, rfl, rfl⟩

theorem ends_changeDisk (operation : String) (f : Disk → Except IoCause Disk) (w : World) :
    Ends (changeDisk operation f) w (fun _ w' => ∃ d, f w.disk = .ok d ∧ w' = { w with disk := d })
      fun stop w' => w' = w ∧ ∃ cause, f w.disk = .error cause ∧
        stop = .error (.io operation cause) := by
  cases hf : f w.disk with
  | ok d =>
    exact ends_of_eq_ok (a := ()) (by simp only [changeDisk, onDisk, hf, Except.map])
      ⟨d, rfl, rfl⟩
  | error cause =>
    exact ends_of_eq_error (by simp only [changeDisk, onDisk, hf, Except.map]) ⟨rfl, cause, rfl, rfl⟩

theorem ends_lookAtDisk (operation : String) (f : Disk → Except IoCause α) (w : World) :
    Ends (lookAtDisk operation f) w (fun a w' => w' = w ∧ f w.disk = .ok a)
      fun stop w' => w' = w ∧ ∃ cause, f w.disk = .error cause ∧
        stop = .error (.io operation cause) := by
  cases hf : f w.disk with
  | ok a =>
    exact ends_of_eq_ok (by simp only [lookAtDisk, onDisk, hf, Except.map]) ⟨rfl, rfl⟩
  | error cause =>
    exact ends_of_eq_error (by simp only [lookAtDisk, onDisk, hf, Except.map])
      ⟨rfl, cause, rfl, rfl⟩

section checked

variable {a b count : Nat} {bs : Bytes}

theorem difference_eq (h : b ≤ a) (w : World) : difference a b w = .ok (a - b) w := by
  rw [difference, if_pos h]
  rfl

theorem frontOf_eq (h : count ≤ bs.length) (w : World) :
    frontOf bs count w = .ok (bs.take count) w := by
  rw [frontOf, if_pos h]
  rfl

/-- A crash of a checked operation leaves the world as it is, too. -/
theorem ends_difference (a b : Nat) (w : World) :
    Ends (difference a b) w (fun _ w' => w' = w) fun _ w' => w' = w := by
  unfold difference
  split
  · exact ends_pure rfl
  · exact ends_throw rfl

theorem ends_frontOf (bs : Bytes) (count : Nat) (w : World) :
    Ends (frontOf bs count) w (fun _ w' => w' = w) fun _ w' => w' = w := by
  unfold frontOf
  split
  · exact ends_pure rfl
  · exact ends_throw rfl

end checked

end Op

end RecordLog
