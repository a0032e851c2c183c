import Mathlib
import RecordLog.Proofs.Operations

/-!
# What an operation can come to

An `Action` is what a writer is asked for, and `Outcome` lists what that can come to, whatever call
fails on the way: what the answer is, which log the writer has then, and what the index holds.
-/

namespace RecordLog

open Record Segment

theorem Circumstances.returns_empty (h : Hook) (f : Fault)
    (hf : ({} : Table Hook Fault).get? h = some f) : f.crash = false := by
  simp at hf

/-- What keeps the calls of one operation from succeeding, though all of them come back. -/
structure Circumstances where
  faults : Table Hook Fault := {}
  /-- Whether the index refuses to commit. -/
  refuses : Bool := false
  returns : ∀ h f, faults.get? h = some f → f.crash = false := by exact Circumstances.returns_empty

/-- A world in which an operation will be carried out. -/
def World.under (w : World) (id : StoreId) (k : Circumstances) : World :=
  { w with
    faults := k.faults
    stores := w.stores.modify id fun s => { s with failCommits := k.refuses } }

/-- What is asked of a writer. Lengths in memory and sizes of keys are numbers of 64 bits. -/
inductive Action where
  | append (data : Bytes) (h : Writable data)
  | sealLive
  | checkpoint
  | observeKey (keySize : Nat) (h : keySize < 2 ^ 64)
  | putCheckpoint (name : String) (pos : Nat)

namespace Action

def perform : Action → Writing (Option Nat)
  | .append data _ => some <$> Writer.append data
  | .sealLive => do Writer.sealLive; return none
  | .checkpoint => some <$> Writer.checkpoint
  | .observeKey keySize _ => do Writer.observeKey keySize; return none
  | .putCheckpoint name pos => do
    Writing.onWorld ((← Writing.writer).putCheckpoint name pos)
    return none

/-- The payload that an answer puts into the log, and where the log ends then. -/
def appended : Action → Except Stop (Option Nat) → List (Bytes × Nat)
  | .append data _, .ok (some n) => [(data, n)]
  | _, _ => []

end Action

def Writing.attempt {α : Type} (op : Writing α) (s : Writer × World) :
    Except Stop α × (Writer × World) :=
  match op s with
  | .ok a s => (.ok a, s)
  | .error stop s => (.error stop, s)

theorem Ends.attempt {α : Type} {op : Writing α} {s : Writer × World}
    {P : Except Stop α → Writer × World → Prop}
    (h : Ends op s (fun a => P (.ok a)) fun stop => P (.error stop)) :
    P (op.attempt s).1 (op.attempt s).2 := by
  unfold Writing.attempt
  split
  · rename_i hx
    exact h.ok hx
  · rename_i hx
    exact h.error hx

/-- Payloads from a position on, each with the position where it ends. -/
def told : (pos : Nat) → List Bytes → List (Bytes × Nat)
  | _, [] => []
  | pos, p :: ps => (p, pos + size p) :: told (pos + size p) ps

theorem told_append (pos : Nat) (ps qs : List Bytes) :
    told pos (ps ++ qs) = told pos ps ++ told (pos + extent ps) qs := by
  induction ps generalizing pos with
  | nil => simp [told]
  | cons p ps ih => simp [told, ih, Nat.add_assoc]

theorem map_told (pos : Nat) (ps : List Bytes) : (told pos ps).map Prod.fst = ps := by
  induction ps generalizing pos with
  | nil => rfl
  | cons p ps ih => simp [told, ih]

variable {q : Place} {l l' : Log} {c c' : Catalog} {writer : Writer} {w w' : World}

section circumstances

variable {id : StoreId} {k : Circumstances}

@[simp] theorem World.disk_under : (w.under id k).disk = w.disk := rfl

@[simp] theorem World.marks_under : (w.under id k).marks = w.marks := rfl

@[simp] theorem World.heads_under : (w.under id k).heads = w.heads := rfl

theorem World.returns_under : (w.under id k).Returns := k.returns

theorem World.calm_under : (w.under id {}).Calm := rfl

theorem World.getElem?_stores_under :
    (w.under id k).stores[id]? = w.stores[id]?.map fun s => { s with failCommits := k.refuses } :=
  List.getElem?_modify_eq _ _ _

theorem World.under_eq_self (h : w.Calm)
    (hs : ∀ s, w.stores[id]? = some s → s.failCommits = false) : w.under id {} = w := by
  have hstores : w.stores.modify id (fun s => { s with failCommits := false }) = w.stores := by
    refine List.ext_getElem? fun i => ?_
    rw [List.getElem?_modify]
    split
    · rename_i heq
      subst heq
      cases hi : w.stores[id]? with
      | none => rfl
      | some s => rw [← hs s hi]; rfl
    · simp
  have hfaults : w.faults = {} := h
  calc w.under id {} = { w with faults := {}, stores := w.stores } := by rw [← hstores]; rfl
    _ = w := by rw [← hfaults]

theorem Store.Keeps.under (h : Store.Keeps q id c w) : Store.Keeps q id c (w.under id k) := by
  obtain ⟨s, hs, hc, hp, hk⟩ := h
  exact ⟨{ s with failCommits := k.refuses }, by rw [World.getElem?_stores_under, hs]; rfl,
    hc, hp, hk⟩

theorem Writer.Carries.under (h : Carries q l c writer w) :
    Carries q l c writer (w.under writer.store k) :=
  { h with
    index := h.index.under
    file := h.file.frame rfl rfl (Nat.le_refl _) }

end circumstances

/-- What an operation can come to. -/
inductive Outcome (q : Place) (l : Log) (c : Catalog) (writer : Writer) (w : World) :
    Action → Except Stop (Option Nat) → Log → Catalog → Writer × World → Prop where
  | appended {data : Bytes} {hd : Writable data} {l₁ : Log} {c₁ : Catalog} {s₁ : Writer × World}
      {w' : World} (hroom : Writer.MadeRoom q l c writer w data l₁ c₁ s₁)
      (hc : Writer.Carries q (l₁.push data) c₁ (s₁.1.withRecord data) w')
      (hm : World.Moves q writer.store l.base w w') :
      Outcome q l c writer w (.append data hd) (.ok (some (l₁.push data).stop)) (l₁.push data) c₁
        (s₁.1.withRecord data, w')
  | refused {a : Action} {e : Error} {w' : World}
      (hu : Writer.Unmoved q l c writer w (writer, w')) :
      Outcome q l c writer w a (.error (.error e)) l c (writer, w')
  | madeRoom {data : Bytes} {hd : Writable data} {e : Error} {l₁ : Log} {c₁ : Catalog}
      {s₁ : Writer × World} {w' : World}
      (hfits : writer.buffer.fits (Record.size data) = false)
      (hroom : Writer.MadeRoom q l c writer w data l₁ c₁ s₁)
      (hu : Writer.Unmoved q l₁ c₁ s₁.1 s₁.2 (s₁.1, w')) :
      Outcome q l c writer w (.append data hd) (.error (.error e)) l₁ c₁ (s₁.1, w')
  | empty (h : l.live.payloads = []) : Outcome q l c writer w .sealLive (.ok none) l c (writer, w)
  | sealed {salt : UInt64} {diskSize : Nat} {next : Buffer} {w' : World}
      (hne : l.live.payloads ≠ []) (hcap : next.capacity = writer.config.capacity)
      (hc : Writer.Carries q (l.rotate salt) (c.seal (l.chunk diskSize) next.state)
        { writer with buffer := next } w')
      (hm : World.Moves q writer.store l.base w w') :
      Outcome q l c writer w .sealLive (.ok none) (l.rotate salt)
        (c.seal (l.chunk diskSize) next.state) ({ writer with buffer := next }, w')
  | kept {w' : World}
      (hc : Writer.Carries q l.keep
        { c with buffer := some writer.buffer.state, stats := some writer.stats } writer w')
      (hm : World.Moves q writer.store l.base w w') :
      Outcome q l c writer w .checkpoint (.ok (some l.stop)) l.keep
        { c with buffer := some writer.buffer.state, stats := some writer.stats } (writer, w')
  | observed {keySize : Nat} {h : keySize < 2 ^ 64} :
      Outcome q l c writer w (.observeKey keySize h) (.ok none) l c
        ({ writer with stats := writer.stats.observeKey keySize }, w)
  | named {name : String} {pos : Nat} {w' : World}
      (hc : Writer.Carries q l { c with checkpoints := c.checkpoints.insert name pos } writer w')
      (hm : World.Moves q writer.store l.base w w') :
      Outcome q l c writer w (.putCheckpoint name pos) (.ok none) l
        { c with checkpoints := c.checkpoints.insert name pos } (writer, w')

theorem attempt_outcome (h : Writer.Ready q l c writer w) (a : Action) :
    ∃ l' c', Outcome q l c writer w a (a.perform.attempt (writer, w)).1 l' c'
      (a.perform.attempt (writer, w)).2 := by
  have hrefused (a : Action) (stop : Stop) (s' : Writer × World)
      (hE : (∃ e, stop = .error e) ∧ Writer.Unmoved q l c writer w s') :
      ∃ l' c', Outcome q l c writer w a (.error stop) l' c' s' := by
    obtain ⟨writer', w'⟩ := s'
    obtain ⟨⟨e, rfl⟩, hu⟩ := hE
    obtain rfl : writer' = writer := hu.same
    exact ⟨_, _, .refused hu⟩
  refine Ends.attempt (P := fun answer s' => ∃ l' c', Outcome q l c writer w a answer l' c' s') ?_
  cases a with
  | append data hd =>
    refine Ends.map some ((Writer.ends_append h hd).mono ?_ ?_)
    · rintro n ⟨writer', w'⟩ ⟨l₁, c₁, s₁, hroom, rfl, hw, hc, hm⟩
      dsimp only at hw hc hm
      subst hw
      exact ⟨_, _, .appended hroom hc hm⟩
    · rintro stop s' ⟨⟨e, rfl⟩, hr⟩
      cases hr with
      | unmoved hu => exact hrefused _ _ _ ⟨⟨e, rfl⟩, hu⟩
      | sealed hfits hroom hu =>
        obtain ⟨writer', w'⟩ := s'
        have hw := hu.same
        dsimp only at hw
        subst hw
        exact ⟨_, _, .madeRoom hfits hroom hu⟩
  | sealLive =>
    refine (Writer.ends_sealLive h).bind ?_ (hrefused _)
    rintro _ ⟨writer', w'⟩ (⟨hnil, heq⟩ | ⟨hne, -, ⟨salt, n, next, hw, hcap, hc⟩, hm⟩)
    · cases heq
      exact ends_pure ⟨_, _, .empty hnil⟩
    · dsimp only at hw hc hm
      subst hw
      exact ends_pure ⟨_, _, .sealed hne hcap hc hm⟩
  | checkpoint =>
    refine Ends.map some ((Writer.ends_checkpoint h).mono ?_ (hrefused _))
    rintro n ⟨writer', w'⟩ ⟨rfl, hw, hc, hm⟩
    obtain rfl : writer' = writer := hw
    exact ⟨_, _, .kept hc hm⟩
  | observeKey keySize hs => exact ends_modify_bind (ends_pure ⟨l, c, .observed⟩)
  | putCheckpoint name pos =>
    refine Writing.ends_writer_bind (Writing.ends_onWorld_bind
      (Writer.ends_putCheckpoint h.carries h.returns name pos) ?_ ?_)
    · rintro _ w' ⟨hc, hm⟩
      exact ends_pure ⟨_, _, .named hc hm⟩
    · rintro stop w' ⟨he, hi⟩
      exact hrefused _ _ _ ⟨he, .idle h.carries hi⟩

namespace Outcome

variable {a : Action} {answer : Except Stop (Option Nat)} {s' : Writer × World}

theorem carries (h : Writer.Carries q l c writer w)
    (ho : Outcome q l c writer w a answer l' c' s') : Writer.Carries q l' c' s'.1 s'.2 := by
  cases ho with
  | appended _ hc _ => exact hc
  | refused hu => exact hu.carries
  | madeRoom _ _ hu => exact hu.carries
  | empty _ => exact h
  | sealed _ _ hc _ => exact hc
  | kept hc _ => exact hc
  | observed => exact h.withStats _
  | named hc _ => exact hc

theorem config (ho : Outcome q l c writer w a answer l' c' s') :
    s'.1.config = writer.config ∧ s'.1.store = writer.store ∧ s'.1.mark = writer.mark := by
  cases ho with
  | appended hroom _ _ => exact ⟨hroom.config.1, hroom.config.2.1, hroom.config.2.2.1⟩
  | madeRoom _ hroom _ => exact ⟨hroom.config.1, hroom.config.2.1, hroom.config.2.2.1⟩
  | _ => exact ⟨rfl, rfl, rfl⟩

theorem moves (h : Writer.Carries q l c writer w)
    (ho : Outcome q l c writer w a answer l' c' s') :
    World.Moves q writer.store l.base w s'.2 := by
  cases ho with
  | appended _ _ hm => exact hm
  | refused hu => exact hu.moves h
  | madeRoom _ hroom hu =>
    have hm := hu.moves (hroom.carries h)
    rw [hroom.config.2.1] at hm
    exact (hroom.moves h).trans (hm.mono hroom.base_le)
  | empty _ => exact .refl h.sound
  | sealed _ _ _ hm => exact hm
  | kept _ hm => exact hm
  | observed => exact .refl h.sound
  | named _ hm => exact hm

theorem grows (ho : Outcome q l c writer w a answer l' c' s') : l.Grows l' := by
  cases ho with
  | appended hroom _ _ => exact hroom.grows.trans (.push _ _)
  | madeRoom _ hroom _ => exact hroom.grows
  | sealed _ _ _ _ => exact .rotate l _
  | kept _ _ => exact .keep l
  | _ => exact .refl l

/-- The log grows by the payloads that were appended and by nothing else. -/
theorem payloads_eq (ho : Outcome q l c writer w a answer l' c' s') :
    l'.payloads = l.payloads ++ (a.appended answer).map Prod.fst := by
  cases ho with
  | appended hroom _ _ => simp [Action.appended, hroom.payloads_eq]
  | refused _ => cases a <;> simp [Action.appended]
  | madeRoom _ hroom _ => simp [Action.appended, hroom.payloads_eq]
  | _ => simp [Action.appended]

theorem appended_eq_told (ho : Outcome q l c writer w a answer l' c' s') :
    a.appended answer = told l.stop ((a.appended answer).map Prod.fst) := by
  cases ho with
  | appended hroom _ _ => simp [Action.appended, told, Log.stop_eq, hroom.payloads_eq]
  | refused _ => cases a <;> simp [Action.appended, told]
  | _ => simp [Action.appended, told]

theorem entries_seal (h : Writer.Carries q l c writer w) (diskSize : Nat) (s : BufferState) :
    c.chunks.entries <+: (c.seal (l.chunk diskSize) s).chunks.entries :=
  ⟨_, (h.entries_insert (l.chunk diskSize)).symm⟩

theorem entries_madeRoom (h : Writer.Carries q l c writer w) {data : Bytes} {l₁ : Log}
    {c₁ : Catalog} {s₁ : Writer × World} (hm : Writer.MadeRoom q l c writer w data l₁ c₁ s₁) :
    c.chunks.entries <+: c₁.chunks.entries := by
  cases hm with
  | fits _ => exact List.prefix_refl _
  | sealed _ _ _ _ _ => exact entries_seal h _ _

theorem entries_prefix (h : Writer.Carries q l c writer w)
    (ho : Outcome q l c writer w a answer l' c' s') :
    c.chunks.entries <+: c'.chunks.entries := by
  cases ho with
  | appended hroom _ _ => exact entries_madeRoom h hroom
  | madeRoom _ hroom _ => exact entries_madeRoom h hroom
  | sealed _ _ _ _ => exact entries_seal h _ _
  | _ => exact List.prefix_refl _

end Outcome

end RecordLog
