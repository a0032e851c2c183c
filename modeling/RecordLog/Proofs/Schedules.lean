import Mathlib
import RecordLog.Session
import RecordLog.Proofs.Refinement

/-!
# Schedules of a background scan

The producer of a background scan, the owner of its handle and everybody else take turns in any
order. A `Move` is one turn and a `Handle.Course` any number of them, with the signs that can be seen
of it: the calls to receive and what they came to, what was called off, and what the producer ended
with. `Handle.Sound` is what the owner can rely on at any time.
-/

namespace RecordLog

def Producer.ending : Producer → Option Error
  | .ended e => e
  | _ => none

/-- What the owner of a handle is at. -/
inductive Phase where
  | free
  /-- Called for something and waits for it. -/
  | receiving
  | finishing
  /-- There is no handle any more. -/
  | gone
  deriving DecidableEq

/-- A background scan in a world, and what its owner is at. -/
structure Handle where
  scan : AsyncScan
  /-- Whether the token that the scan was started with was called off. -/
  parent : Bool
  world : World
  phase : Phase := .free

def Reader.handle (r : Reader) (start depth : Nat) (parent : Bool) (w : World) : Handle :=
  ⟨r.scanAsync start depth, parent, w, .free⟩

/-- What can be seen of a schedule. -/
inductive Sign where
  /-- The producer took this world to plan by. -/
  | planned (w : World)
  /-- The producer ended with an error. -/
  | failed (e : Error)
  | called
  | got (x : Received)
  /-- The scan's own token was called off, by its owner. -/
  | calledOff
  | parentCalledOff
  | finished (e : Option Error)
  | dropped

namespace Handle

/-- Whether the scan's own token counts as called off, as it does if its parent was. -/
def cancelled (h : Handle) : Bool := h.scan.cancelled || h.parent

def produce (h : Handle) : Handle :=
  { h with
    scan := (h.scan.step h.cancelled h.world).1
    world := (h.scan.step h.cancelled h.world).2 }

def produced (h : Handle) : List Sign :=
  (if h.scan.producer = .planning then [.planned h.world] else []) ++
    (h.produce.scan.producer.ending.map .failed).toList

def receive (h : Handle) : Received × AsyncScan := h.scan.receive h.cancelled

end Handle

open Handle

/-- What may come next. What goes on elsewhere may turn one world into another for a producer, as far
as `may` has it. -/
inductive Move (may : Producer → World → World → Prop) : Handle → List Sign → Handle → Prop where
  | produce (h : Handle) : Move may h h.produced h.produce
  | elsewhere {h : Handle} {w : World} (hw : may h.scan.producer h.world w) :
      Move may h [] { h with world := w }
  | call {h : Handle} (hp : h.phase = .free) : Move may h [.called] { h with phase := .receiving }
  | wait {h : Handle} (hp : h.phase = .receiving) (hx : h.receive.1 = .pending) :
      Move may h [] { h with scan := h.receive.2 }
  | get {h : Handle} (hp : h.phase = .receiving) (hx : h.receive.1 ≠ .pending) :
      Move may h [.got h.receive.1] { h with scan := h.receive.2, phase := .free }
  | callOff {h : Handle} (hp : h.phase ≠ .gone) :
      Move may h [.calledOff] { h with scan := h.scan.cancel }
  | callOffParent (h : Handle) : Move may h [.parentCalledOff] { h with parent := true }
  | finish {h : Handle} (hp : h.phase = .free) :
      Move may h [] { h with scan := h.scan.close, phase := .finishing }
  | finished {h : Handle} (hp : h.phase = .finishing) (hx : h.scan.producer = .exited) :
      Move may h [.finished h.scan.error]
        { h with scan := { h.scan.cancel with error := none }, phase := .gone }
  | drop {h : Handle} (hp : h.phase ≠ .gone) :
      Move may h [.dropped] { h with scan := h.scan.cancel.close, phase := .gone }

/-- What came of a handle in the end, and all that could be seen of it. -/
inductive Handle.Course (may : Producer → World → World → Prop) (h₀ : Handle) :
    List Sign → Handle → Prop where
  | start : Course may h₀ [] h₀
  | move {es new : List Sign} {h h' : Handle} (hc : Course may h₀ es h) (hm : Move may h new h') :
      Course may h₀ (es ++ new) h'

abbrev Anything (_ : Producer) (_ _ : World) : Prop := True

namespace Sign

def ofProducer : Sign → Bool
  | .planned _ | .failed _ => true
  | _ => false

def callsOff : Sign → Bool
  | .calledOff | .parentCalledOff | .finished _ | .dropped => true
  | _ => false

end Sign

open Sign

variable {may : Producer → World → World → Prop} {h h' h₀ : Handle} {es es' new : List Sign}
  {c : Bool} {a a' : AsyncScan} {w : World} {x : Received}

namespace AsyncScan

theorem step_early (h : a.producer.isOver = false) : ∃ producer queue,
    (a.step c w).1 = { a with producer, queue } := by
  unfold step
  cases hp : a.producer with
  | ended e => simp [hp, Producer.isOver] at h
  | exited => simp [hp, Producer.isOver] at h
  | planning =>
    dsimp only
    split <;> exact ⟨_, _, rfl⟩
  | running plan cursor =>
    cases cursor with
    | none =>
      dsimp only
      split
      · exact ⟨_, _, rfl⟩
      split
      · exact ⟨_, _, rfl⟩
      split <;> exact ⟨_, _, rfl⟩
    | some cursor =>
      dsimp only
      split
      · exact ⟨_, _, rfl⟩
      · exact ⟨_, _, rfl⟩
      split <;> exact ⟨_, _, rfl⟩
  | holding r plan cursor =>
    dsimp only
    split
    · exact ⟨_, _, rfl⟩
    split
    · exact ⟨_, _, rfl⟩
    · exact ⟨.holding r plan cursor, a.queue, by rw [← hp]⟩

theorem step_ended {e : Option Error} (h : a.producer = .ended e) :
    a.step c w = ({ a with producer := .exited, error := e }, w) := by
  rw [step, h]

theorem step_exited (h : a.producer = .exited) : a.step c w = (a, w) := by
  rw [step, h]

def Drained (c : Bool) (a : AsyncScan) : Prop :=
  a.awaiting = true ∨
    a.awaiting = false ∧ a.done = false ∧ c = false ∧ a.queue = [] ∧ a.producer.isOver = true

/-- What one attempt to receive can come to. -/
inductive Reception (c : Bool) (a : AsyncScan) : Received → AsyncScan → Prop where
  | stopped (ha : a.awaiting = false) (hd : a.done = true ∨ c = true) :
      Reception c a .ended a.stop
  | record {r : Record} {rest : List Record} (ha : a.awaiting = false) (hd : a.done = false)
      (hc : c = false) (hq : a.queue = r :: rest) :
      Reception c a (.record r) { a with queue := rest }
  | waiting (ha : a.awaiting = false) (hd : a.done = false) (hc : c = false) :
      Reception c a .pending a
  | awaiting {e : Option Error} (hd : a.Drained c) (hp : a.producer = .ended e) :
      Reception c a .pending { a with done := true, awaiting := true }
  | failed {e : Error} (hd : a.Drained c) (hp : ∀ e, a.producer ≠ .ended e)
      (he : a.error = some e) :
      Reception c a (.error e) { a with done := true, awaiting := false, error := none }
  | last (hd : a.Drained c) (hp : ∀ e, a.producer ≠ .ended e) (he : a.error = none) :
      Reception c a .ended { a with done := true, awaiting := false }

theorem Drained.reception (h : a.Drained c) : Reception c a a.receiveEnd.1 a.receiveEnd.2 := by
  unfold receiveEnd
  split
  · rename_i hp
    exact .awaiting h hp
  · rename_i hp
    split
    · exact .failed h hp (by assumption)
    · exact .last h hp (by assumption)

theorem reception (c : Bool) (a : AsyncScan) :
    Reception c a (a.receive c).1 (a.receive c).2 := by
  unfold receive
  split
  · rename_i ha
    exact Drained.reception (.inl ha)
  rename_i ha
  rw [Bool.not_eq_true] at ha
  split
  · rename_i hd
    exact .stopped ha (by simpa using hd)
  rename_i hd
  simp only [Bool.or_eq_true, not_or, Bool.not_eq_true] at hd
  split
  · exact .record ha hd.1 hd.2 (by assumption)
  split
  · exact Drained.reception (.inr ⟨ha, hd.1, hd.2, by assumption, by assumption⟩)
  · exact .waiting ha hd.1 hd.2

end AsyncScan

namespace Handle

theorem produced_cases (h : Handle) :
    (h.scan.producer.isOver = false ∧
      ∃ producer queue, h.produce.scan = { h.scan with producer, queue }) ∨
    (∃ e, h.scan.producer = .ended e ∧
      h.produce.scan = { h.scan with producer := .exited, error := e }) ∨
    (h.scan.producer = .exited ∧ h.produce.scan = h.scan) := by
  cases ho : h.scan.producer.isOver with
  | false => exact .inl ⟨rfl, h.scan.step_early ho⟩
  | true =>
    right
    cases hp : h.scan.producer with
    | ended e => exact .inl ⟨e, rfl, congrArg Prod.fst (h.scan.step_ended hp)⟩
    | exited => exact .inr ⟨rfl, congrArg Prod.fst (h.scan.step_exited hp)⟩
    | _ => rw [hp] at ho; cases ho

theorem produce_receiver (h : Handle) :
    h.produce.scan.done = h.scan.done ∧ h.produce.scan.awaiting = h.scan.awaiting ∧
      h.produce.scan.cancelled = h.scan.cancelled ∧
      h.produce.scan.receiving = h.scan.receiving := by
  rcases h.produced_cases with ⟨-, producer, queue, hscan⟩ | ⟨e, -, hscan⟩ | ⟨-, hscan⟩ <;>
    rw [hscan] <;> exact ⟨rfl, rfl, rfl, rfl⟩

theorem ofProducer_of_mem_produced {h : Handle} {e : Sign} (he : e ∈ h.produced) :
    e.ofProducer = true := by
  rcases List.mem_append.1 he with he | he
  · split at he
    · rw [List.mem_singleton.1 he]
      rfl
    · cases he
  · obtain ⟨x, -, rfl⟩ := Option.map_eq_some_iff.1 (Option.mem_toList.1 he)
    rfl

theorem reception (h : Handle) : h.scan.Reception h.cancelled h.receive.1 h.receive.2 :=
  AsyncScan.reception _ _

/-- What an owner of a handle can rely on. -/
structure Sound (h : Handle) : Prop where
  awaiting : h.scan.awaiting = true →
    h.scan.done = true ∧ h.scan.queue = [] ∧ h.scan.producer.isOver = true
  free : h.phase = .free → h.scan.awaiting = false
  error : h.scan.producer ≠ .exited → h.scan.error = none
  /-- Nothing is left once the last thing was received. -/
  spent : h.scan.done = true → h.scan.awaiting = false → h.scan.receiving = true →
    h.scan.producer = .exited ∧ h.scan.error = none ∧ h.scan.queue = []

theorem sound_handle (r : Reader) (start depth : Nat) (parent : Bool) (w : World) :
    (r.handle start depth parent w).Sound where
  awaiting := by rintro ⟨⟩
  free _ := rfl
  error _ := rfl
  spent := by rintro ⟨⟩

end Handle

namespace Handle.Sound

theorem drained (hs : h.Sound) (hd : h.scan.Drained c) :
    h.scan.queue = [] ∧ h.scan.producer.isOver = true := by
  rcases hd with ha | ⟨-, -, -, hq, ho⟩
  · exact (hs.awaiting ha).2
  · exact ⟨hq, ho⟩

theorem exited (hs : h.Sound) (hd : h.scan.Drained c) (hp : ∀ e, h.scan.producer ≠ .ended e) :
    h.scan.producer = .exited := by
  have ho := (hs.drained hd).2
  cases hproducer : h.scan.producer with
  | ended e => exact absurd hproducer (hp e)
  | exited => rfl
  | _ => rw [hproducer] at ho; cases ho

theorem error_of_not_over (hs : h.Sound) (ho : h.scan.producer.isOver = false) :
    h.scan.error = none :=
  hs.error fun hp => by rw [hp] at ho; cases ho

theorem produce (hs : h.Sound) : h.produce.Sound := by
  rcases h.produced_cases with ⟨ho, producer, queue, hscan⟩ | ⟨e, hp, hscan⟩ | ⟨hp, hscan⟩
  · refine ⟨fun ha => ?_, fun hf => ?_, fun _ => ?_, fun hd ha hr => ?_⟩
    · rw [hscan] at ha
      exact absurd ((hs.awaiting ha).2.2.symm.trans ho) (by decide)
    · rw [hscan]
      exact hs.free hf
    · rw [hscan]
      exact hs.error_of_not_over ho
    · rw [hscan] at hd ha hr
      rw [(hs.spent hd ha hr).1] at ho
      cases ho
  · refine ⟨fun ha => ?_, fun hf => ?_, fun hne => ?_, fun hd ha hr => ?_⟩
    · rw [hscan] at ha ⊢
      exact ⟨(hs.awaiting ha).1, (hs.awaiting ha).2.1, rfl⟩
    · rw [hscan]
      exact hs.free hf
    · rw [hscan] at hne
      exact absurd rfl hne
    · rw [hscan] at hd ha hr
      have := (hs.spent hd ha hr).1
      rw [hp] at this
      cases this
  · exact ⟨by rw [hscan]; exact hs.awaiting, by rw [hscan]; exact hs.free,
      by rw [hscan]; exact hs.error, by rw [hscan]; exact hs.spent⟩

theorem receive (hs : h.Sound) (hr : h.scan.Reception c x a) {phase : Phase}
    (hphase : phase = .free → x ≠ .pending) : { h with scan := a, phase }.Sound := by
  have hwaits {p : Prop} (hf : phase = .free) (hx : x = .pending) : p := absurd hx (hphase hf)
  cases hr with
  | stopped ha hd =>
    exact ⟨fun h => absurd (ha.symm.trans h) (by decide), fun _ => ha, hs.error,
      fun _ _ hr => (by cases hr)⟩
  | record ha hd hc hq =>
    exact ⟨fun h => absurd (ha.symm.trans h) (by decide), fun _ => ha, hs.error,
      fun h => absurd (hd.symm.trans h) (by decide)⟩
  | waiting ha _ _ => exact ⟨hs.awaiting, fun _ => ha, hs.error, hs.spent⟩
  | awaiting hd hp =>
    exact ⟨fun _ => ⟨rfl, hs.drained hd⟩, fun hf => hwaits hf rfl, hs.error,
      fun _ ha => (by cases ha)⟩
  | failed hd hp he =>
    exact ⟨fun h => (by cases h), fun _ => rfl, fun _ => rfl,
      fun _ _ _ => ⟨hs.exited hd hp, rfl, (hs.drained hd).1⟩⟩
  | last hd hp he =>
    exact ⟨fun h => (by cases h), fun _ => rfl, fun _ => he,
      fun _ _ _ => ⟨hs.exited hd hp, he, (hs.drained hd).1⟩⟩

end Handle.Sound

theorem Move.sound (hm : Move may h new h') (hs : h.Sound) : h'.Sound := by
  cases hm with
  | produce => exact hs.produce
  | elsewhere hw => exact ⟨hs.awaiting, hs.free, hs.error, hs.spent⟩
  | call hp => exact ⟨hs.awaiting, fun hf => (by cases hf), hs.error, hs.spent⟩
  | wait hp hx => exact hs.receive h.reception fun hf => (by rw [hp] at hf; cases hf)
  | get hp hx => exact hs.receive h.reception fun _ => hx
  | callOff hp => exact ⟨hs.awaiting, hs.free, hs.error, hs.spent⟩
  | callOffParent => exact ⟨hs.awaiting, hs.free, hs.error, hs.spent⟩
  | finish hp =>
    exact ⟨hs.awaiting, fun hf => (by cases hf), hs.error, fun _ _ hr => (by cases hr)⟩
  | finished hp hx =>
    exact ⟨hs.awaiting, fun hf => (by cases hf), fun _ => rfl,
      fun hd ha hr => ⟨hx, rfl, (hs.spent hd ha hr).2.2⟩⟩
  | drop hp => exact ⟨hs.awaiting, fun hf => (by cases hf), hs.error, fun _ _ hr => (by cases hr)⟩

theorem Move.eq_of_mem {e : Sign} (hm : Move may h new h') (he : e ∈ new)
    (hp : e.ofProducer = false) : new = [e] := by
  cases hm with
  | produce => exact absurd (hp.symm.trans (ofProducer_of_mem_produced he)) (by decide)
  | _ => grind

namespace Handle.Course

theorem sound (hc : h₀.Course may es h) (hs : h₀.Sound) : h.Sound := by
  induction hc with
  | start => exact hs
  | move _ hm ih => exact hm.sound ih

theorem trans (hc : h₀.Course may es h) (hc' : h.Course may es' h') :
    h₀.Course may (es ++ es') h' := by
  induction hc' with
  | start => rwa [List.append_nil]
  | move _ hm ih => rw [← List.append_assoc]; exact ih.move hm

theorem split (hc : h₀.Course may es h) {pre post : List Sign} {e : Sign}
    (he : es = pre ++ e :: post) (hp : e.ofProducer = false) :
    ∃ h₁ h₂, h₀.Course may pre h₁ ∧ Move may h₁ [e] h₂ ∧ h₂.Course may post h := by
  induction hc generalizing post with
  | start => simp at he
  | @move es new h h' hc hm ih =>
    have alone (front : List Sign) (hnew : new = front ++ e :: post) :
        front = [] ∧ post = [] := by
      have heq := hm.eq_of_mem (e := e) (by simp [hnew]) hp
      rw [hnew, List.append_eq_singleton_iff] at heq
      simpa using heq
    rcases List.append_eq_append_iff.1 he with ⟨front, rfl, hnew⟩ | ⟨rest, rfl, hrest⟩
    · obtain ⟨rfl, rfl⟩ := alone front hnew
      rw [List.nil_append] at hnew
      subst hnew
      exact ⟨h, h', by rwa [List.append_nil], hm, .start⟩
    cases rest with
    | nil =>
      rw [List.nil_append] at hrest
      obtain ⟨-, rfl⟩ := alone [] hrest.symm
      subst hrest
      exact ⟨h, h', by rwa [List.append_nil] at hc, hm, .start⟩
    | cons e' rest =>
      obtain ⟨rfl, rfl⟩ := List.cons.inj hrest
      obtain ⟨h₁, h₂, hc₁, hm₁, hc₂⟩ := ih rfl
      exact ⟨h₁, h₂, hc₁, hm₁, hc₂.move hm⟩

end Handle.Course

namespace Move

variable {e : Sign}

theorem not_produced (he : e.ofProducer = false) (hnew : h.produced = [e]) : False := by
  have := ofProducer_of_mem_produced (hnew ▸ List.mem_singleton_self e)
  rw [he] at this
  cases this

theorem of_called (hm : Move may h [.called] h') :
    h.phase = .free ∧ h' = { h with phase := .receiving } := by
  generalize hnew : [Sign.called] = new at hm
  cases hm with
  | produce => exact (not_produced rfl hnew.symm).elim
  | call hp => exact ⟨hp, rfl⟩
  | _ => simp at hnew

theorem of_got (hm : Move may h [.got x] h') :
    h.phase = .receiving ∧ x = h.receive.1 ∧ h' = { h with scan := h.receive.2, phase := .free } := by
  generalize hnew : [Sign.got x] = new at hm
  cases hm with
  | produce => exact (not_produced rfl hnew.symm).elim
  | get hp _ => exact ⟨hp, by simpa using hnew, rfl⟩
  | _ => simp at hnew

theorem of_finished {e : Option Error} (hm : Move may h [.finished e] h') :
    h.phase = .finishing ∧ h.scan.producer = .exited ∧ e = h.scan.error ∧
      h' = { h with scan := { h.scan.cancel with error := none }, phase := .gone } := by
  generalize hnew : [Sign.finished e] = new at hm
  cases hm with
  | produce => exact (not_produced rfl hnew.symm).elim
  | finished hp hx => exact ⟨hp, hx, by simpa using hnew, rfl⟩
  | _ => simp at hnew

end Move

theorem AsyncScan.Reception.producer_eq (hr : Reception c a x a') : a'.producer = a.producer := by
  cases hr <;> rfl

theorem AsyncScan.Reception.receiving (hr : Reception c a x a') (h : a'.receiving = true) : a.receiving = true := by
  cases hr with
  | stopped _ _ => cases h
  | _ => exact h

theorem Move.not_receiving (hm : Move may h new h') (hr : h.scan.receiving = false) :
    h'.scan.receiving = false := by
  cases hm with
  | produce => exact h.produce_receiver.2.2.2.trans hr
  | wait => exact Bool.eq_false_iff.2 fun h' => by simp [h.reception.receiving h'] at hr
  | get => exact Bool.eq_false_iff.2 fun h' => by simp [h.reception.receiving h'] at hr
  | finish => rfl
  | drop => rfl
  | _ => exact hr

theorem Move.parent_iff (hm : Move may h new h') :
    h'.parent = true ↔ h.parent = true ∨ .parentCalledOff ∈ new := by
  cases hm with
  | produce =>
    have hno : Sign.parentCalledOff ∉ h.produced := fun he =>
      Bool.false_ne_true (ofProducer_of_mem_produced he)
    simp [hno, Handle.produce]
  | _ => simp

theorem Move.cancelled_iff (hm : Move may h new h') :
    h'.cancelled = true ↔ h.cancelled = true ∨ ∃ e ∈ new, e.callsOff = true := by
  cases hm with
  | produce =>
    have hno : ¬ ∃ e ∈ h.produced, e.callsOff = true := by
      rintro ⟨e, he, hoff⟩
      have := ofProducer_of_mem_produced he
      cases e <;> contradiction
    have hsame : h.produce.cancelled = h.cancelled := by
      rw [Handle.cancelled, h.produce_receiver.2.2.1]
      rfl
    simp [hno, hsame]
  | wait => simp [Handle.cancelled, Handle.receive]
  | get => simp [Handle.cancelled, Handle.receive, callsOff]
  | _ => simp [Handle.cancelled, callsOff, AsyncScan.cancel, AsyncScan.close]

namespace Handle.Course

theorem parent_iff (hc : h₀.Course may es h) :
    h.parent = true ↔ h₀.parent = true ∨ .parentCalledOff ∈ es := by
  induction hc with
  | start => simp
  | move _ hm ih => rw [hm.parent_iff, ih, List.mem_append, or_assoc]

theorem cancelled_iff (hc : h₀.Course may es h) :
    h.cancelled = true ↔ h₀.cancelled = true ∨ ∃ e ∈ es, e.callsOff = true := by
  induction hc with
  | start => simp
  | move _ hm ih =>
    rw [hm.cancelled_iff, ih, or_assoc]
    simp only [List.mem_append, or_and_right, exists_or]

theorem not_receiving (hc : h₀.Course may es h) (hr : h₀.scan.receiving = false) :
    h.scan.receiving = false := by
  induction hc with
  | start => exact hr
  | move _ hm ih => exact hm.not_receiving ih

end Handle.Course

end RecordLog
