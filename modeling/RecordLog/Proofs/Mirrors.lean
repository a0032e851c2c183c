import Mathlib
import RecordLog.Proofs.Ends

/-!
# Operations in two states at once

`Mirrors R x` says of an operation begun in two states that are related that it goes the same way in
both: it ends with the same value or stops for the same reason, and the states it leaves are related
again. The lemmas follow the way operations are put together.
-/

namespace RecordLog

variable {ε σ α β : Type}

/-- Two results that agree on the value or the stop and leave related states. -/
inductive Mirrored (R : σ → σ → Prop) :
    EStateM.Result ε σ α → EStateM.Result ε σ α → Prop where
  | ok {a : α} {t t' : σ} (h : R t t') : Mirrored R (.ok a t) (.ok a t')
  | error {e : ε} {t t' : σ} (h : R t t') : Mirrored R (.error e t) (.error e t')

def Mirrors (R : σ → σ → Prop) (x : EStateM ε σ α) : Prop :=
  ∀ s s', R s s' → Mirrored R (x s) (x s')

/-- Whatever state an operation is begun in, `Q` holds of its value if it ends well. -/
def Gives (Q : α → Prop) (x : EStateM ε σ α) : Prop :=
  ∀ s, Ends x s (fun a _ => Q a) fun _ _ => True

section gives

variable {Q : α → Prop} {P : β → Prop} {x : EStateM ε σ α}

theorem gives_pure {a : α} (h : Q a) : Gives Q (pure a : EStateM ε σ α) := fun _ => ends_pure h

theorem gives_bind {f : α → EStateM ε σ β} (h : ∀ a, Gives P (f a)) : Gives P (x >>= f) := by
  intro s
  have hx : Ends x s (fun _ _ => True) fun _ _ => True := ⟨fun _ => trivial, fun _ => trivial⟩
  exact hx.bind (fun a s' _ => h a s') fun _ _ h => h

end gives

variable {R : σ → σ → Prop} {x : EStateM ε σ α}

theorem mirrors_pure (a : α) : Mirrors R (pure a : EStateM ε σ α) := fun _ _ h => .ok h

theorem mirrors_throw (e : ε) : Mirrors R (throw e : EStateM ε σ α) := fun _ _ h => .error h

theorem mirrors_modify {f : σ → σ} (h : ∀ s s', R s s' → R (f s) (f s')) :
    Mirrors R (modify f : EStateM ε σ PUnit) := fun s s' hs => .ok (h s s' hs)

theorem mirrors_get_bind {f : σ → EStateM ε σ α}
    (h : ∀ s s', R s s' → Mirrored R (f s s) (f s' s')) :
    Mirrors R ((get : EStateM ε σ σ) >>= f) := h

namespace Mirrored

theorem exists_of_ok {r r' : EStateM.Result ε σ α} (h : Mirrored R r r') {a : α} {t : σ}
    (hr : r = .ok a t) : ∃ t', r' = .ok a t' ∧ R t t' := by
  subst hr
  cases h with
  | ok h => exact ⟨_, rfl, h⟩

theorem exists_of_error {r r' : EStateM.Result ε σ α} (h : Mirrored R r r') {e : ε} {t : σ}
    (hr : r = .error e t) : ∃ t', r' = .error e t' ∧ R t t' := by
  subst hr
  cases h with
  | error h => exact ⟨_, rfl, h⟩

theorem bind {f : α → EStateM ε σ β} {s s' : σ} (h : Mirrored R (x s) (x s'))
    (hf : ∀ a t t', x s = .ok a t → R t t' → Mirrored R (f a t) (f a t')) :
    Mirrored R ((x >>= f) s) ((x >>= f) s') := by
  simp only [Bind.bind, EStateM.bind]
  cases hx : x s with
  | ok a t =>
    obtain ⟨t', hx', ht⟩ := h.exists_of_ok hx
    rw [hx']
    exact hf a t t' hx ht
  | error e t =>
    obtain ⟨t', hx', ht⟩ := h.exists_of_error hx
    rw [hx']
    exact .error ht

theorem catch_stop {f : ε → EStateM ε σ α} {s s' : σ} (h : Mirrored R (x s) (x s'))
    (hf : ∀ e t t', R t t' → Mirrored R (f e t) (f e t')) :
    Mirrored R (tryCatch x f s) (tryCatch x f s') := by
  simp only [tryCatch, tryCatchThe, MonadExceptOf.tryCatch, EStateM.tryCatch]
  cases hx : x s with
  | ok a t =>
    obtain ⟨t', hx', ht⟩ := h.exists_of_ok hx
    rw [hx']
    exact .ok ht
  | error e t =>
    obtain ⟨t', hx', ht⟩ := h.exists_of_error hx
    rw [hx']
    exact hf e t t' ht

end Mirrored

namespace Mirrors

theorem bind {f : α → EStateM ε σ β} (h : Mirrors R x) (hf : ∀ a, Mirrors R (f a)) :
    Mirrors R (x >>= f) :=
  fun s s' hs => (h s s' hs).bind fun a t t' _ ht => hf a t t' ht

theorem bind_of_gives {Q : α → Prop} {f : α → EStateM ε σ β} (h : Mirrors R x) (hq : Gives Q x)
    (hf : ∀ a, Q a → Mirrors R (f a)) : Mirrors R (x >>= f) :=
  fun s s' hs => (h s s' hs).bind fun a t t' hx ht => hf a ((hq s).ok hx) t t' ht

theorem map (f : α → β) (h : Mirrors R x) : Mirrors R (f <$> x) := by
  have heq : f <$> x = x >>= fun a => pure (f a) := by
    funext s
    simp only [Functor.map, EStateM.map, Bind.bind, EStateM.bind]
    cases x s <;> rfl
  exact heq ▸ h.bind fun a => mirrors_pure (f a)

theorem catch_stop {f : ε → EStateM ε σ α} (h : Mirrors R x) (hf : ∀ e, Mirrors R (f e)) :
    Mirrors R (tryCatch x f) :=
  fun s s' hs => (h s s' hs).catch_stop fun e t t' ht => hf e t t' ht

end Mirrors

end RecordLog
