import Mathlib
import RecordLog.Writer

/-!
# How operations end

`Ends x s Q E` says of an operation begun in a state that `Q` holds of its value and the new state
if it ends well, and `E` of its stop and the new state if it does not. The lemmas follow the way
operations are put together, so what a long one leaves behind is read off its parts.
-/

namespace RecordLog

variable {ε σ α β : Type} {x : EStateM ε σ α} {s : σ} {P Q : α → σ → Prop} {E F : ε → σ → Prop}

structure Ends (x : EStateM ε σ α) (s : σ) (Q : α → σ → Prop) (E : ε → σ → Prop) : Prop where
  ok : ∀ {a s'}, x s = .ok a s' → Q a s'
  error : ∀ {e s'}, x s = .error e s' → E e s'

theorem ends_of_eq_ok {a : α} {t : σ} (h : x s = .ok a t) (hQ : Q a t) : Ends x s Q E := by
  refine ⟨fun hx => ?_, fun hx => ?_⟩
  · rw [h] at hx
    cases hx
    exact hQ
  · rw [h] at hx
    cases hx

theorem ends_of_eq_error {e : ε} {t : σ} (h : x s = .error e t) (hE : E e t) :
    Ends x s Q E := by
  refine ⟨fun hx => ?_, fun hx => ?_⟩
  · rw [h] at hx
    cases hx
  · rw [h] at hx
    cases hx
    exact hE

theorem ends_pure {a : α} (h : Q a s) : Ends (pure a) s Q E := ends_of_eq_ok rfl h

theorem ends_throw {e : ε} (h : E e s) : Ends (throw e : EStateM ε σ α) s Q E :=
  ends_of_eq_error rfl h

theorem ends_modify {f : σ → σ} {Q : PUnit → σ → Prop} (h : Q ⟨⟩ (f s)) :
    Ends (modify f : EStateM ε σ PUnit) s Q E := ends_of_eq_ok rfl h

theorem ends_modify_bind {f : σ → σ} {g : PUnit → EStateM ε σ α} (h : Ends (g ⟨⟩) (f s) Q E) :
    Ends (modify f >>= g) s Q E := ⟨fun hx => h.ok hx, fun hx => h.error hx⟩

theorem ends_get {Q : σ → σ → Prop} (h : Q s s) : Ends (get : EStateM ε σ σ) s Q E :=
  ends_of_eq_ok rfl h

namespace Ends

theorem mono (h : Ends x s P F) (hQ : ∀ a s', P a s' → Q a s')
    (hE : ∀ e s', F e s' → E e s') : Ends x s Q E :=
  ⟨fun hx => hQ _ _ (h.ok hx), fun hx => hE _ _ (h.error hx)⟩

theorem bind {f : α → EStateM ε σ β} {R : β → σ → Prop} (h : Ends x s P F)
    (hf : ∀ a s', P a s' → Ends (f a) s' R E) (hE : ∀ e s', F e s' → E e s') :
    Ends (x >>= f) s R E := by
  cases hx : x s with
  | ok a s' =>
    have heq : (x >>= f) s = f a s' := by simp only [Bind.bind, EStateM.bind, hx]
    have := hf a s' (h.ok hx)
    exact ⟨fun hy => this.ok (heq ▸ hy), fun hy => this.error (heq ▸ hy)⟩
  | error e s' =>
    exact ends_of_eq_error (by simp only [Bind.bind, EStateM.bind, hx]) (hE e s' (h.error hx))

theorem bind_of_eq {f : α → EStateM ε σ β} {R : β → σ → Prop} {a : α} {t : σ} (h : x s = .ok a t)
    (hf : Ends (f a) t R E) : Ends (x >>= f) s R E := by
  have heq : (x >>= f) s = f a t := by simp only [Bind.bind, EStateM.bind, h]
  exact ⟨fun hy => hf.ok (heq ▸ hy), fun hy => hf.error (heq ▸ hy)⟩

theorem catch_stop {f : ε → EStateM ε σ α} (h : Ends x s Q F)
    (hf : ∀ e s', F e s' → Ends (f e) s' Q E) : Ends (tryCatch x f) s Q E := by
  cases hx : x s with
  | ok a s' =>
    refine ends_of_eq_ok ?_ (h.ok hx)
    simp only [tryCatch, tryCatchThe, MonadExceptOf.tryCatch, EStateM.tryCatch, hx]
  | error e s' =>
    have heq : tryCatch x f s = f e s' := by
      simp only [tryCatch, tryCatchThe, MonadExceptOf.tryCatch, EStateM.tryCatch, hx]
      rfl
    have := hf e s' (h.error hx)
    exact ⟨fun hy => this.ok (heq ▸ hy), fun hy => this.error (heq ▸ hy)⟩

theorem and {P' : α → σ → Prop} {E' : ε → σ → Prop} (h : Ends x s P E) (h' : Ends x s P' E') :
    Ends x s (fun a s' => P a s' ∧ P' a s') fun e s' => E e s' ∧ E' e s' :=
  ⟨fun hx => ⟨h.ok hx, h'.ok hx⟩, fun hx => ⟨h.error hx, h'.error hx⟩⟩

theorem map {R : β → σ → Prop} (f : α → β) (h : Ends x s (fun a => R (f a)) E) :
    Ends (f <$> x) s R E := by
  cases hx : x s with
  | ok a s' => exact ends_of_eq_ok (by simp only [Functor.map, EStateM.map, hx]) (h.ok hx)
  | error e s' => exact ends_of_eq_error (by simp only [Functor.map, EStateM.map, hx]) (h.error hx)

end Ends

theorem Ends.onWorld {op : Op α} {writer : Writer} {w : World} {Q : α → Writer × World → Prop}
    {E : Stop → Writer × World → Prop}
    (h : Ends op w (fun a w' => Q a (writer, w')) fun stop w' => E stop (writer, w')) :
    Ends (Writing.onWorld op) (writer, w) Q E := by
  cases hx : op w with
  | ok a w' =>
    exact ends_of_eq_ok (by simp only [Writing.onWorld, hx]) (h.ok hx)
  | error stop w' =>
    exact ends_of_eq_error (by simp only [Writing.onWorld, hx]) (h.error hx)

/-- Whether an operation ends well with something that passes a check. -/
def Op.passes (op : Op α) (p : α → World → Bool) (w : World) : Bool :=
  match op w with
  | .ok a w' => p a w'
  | .error _ _ => false

theorem Op.exists_of_passes {op : Op α} {p : α → World → Bool} {w : World}
    (h : op.passes p w = true) : ∃ a w', op w = .ok a w' ∧ p a w' = true := by
  unfold passes at h
  split at h
  · exact ⟨_, _, by assumption, h⟩
  · cases h

theorem Op.check_of_passes {op : Op α} {w w' : World} {a : α} (hop : op w = .ok a w')
    (p : α → World → Bool) (h : op.passes p w = true) : p a w' = true := by
  simpa only [passes, hop] using h

end RecordLog
