import Mathlib
import RecordLog.Proofs.Frames
import RecordLog.Proofs.Lives

/-!
# Turns in the life of a log

A `Moment` is a log at some time and a `Turn` is one thing that happens to it. Whatever turns follow,
what was durable stays in the log, chunks that are listed stay listed, an index that was closed stays
closed, and a watermark without a writer stays where it is.
-/

namespace RecordLog

open Record Segment

/-- A log at some time: its writer, if it has one, its index, the world and the ledger. -/
structure Moment where
  writer : Option Writer
  index : StoreId
  world : World
  ledger : Ledger

/-- One thing that happens to a log. -/
inductive Turn (cfg : Config) : Moment → Moment → Prop where
  | act (writer : Writer) (id : StoreId) (w : World) (g : Ledger) (step : Step) :
      Turn cfg ⟨some writer, id, w, g⟩
        ⟨some (step.take (writer, w)).2.1, id, (step.take (writer, w)).2.2,
          g.after step.action (step.take (writer, w)).1 writer (step.take (writer, w)).2.1⟩
  | drop (writer : Writer) (id : StoreId) (w : World) (g : Ledger) :
      Turn cfg ⟨some writer, id, w, g⟩ ⟨none, id, w, g.cut⟩
  | close {writer : Writer} {w w' : World} (id : StoreId) (g : Ledger)
      (hc : writer.close w = .ok () w') : Turn cfg ⟨some writer, id, w, g⟩ ⟨none, id, w', g.cut⟩
  | release {id : StoreId} {w w' : World} (g : Ledger) (hc : Store.close id w = .ok () w') :
      Turn cfg ⟨none, id, w, g⟩ ⟨none, id, w', g⟩
  | enter {cfg' : Config} {id id' : StoreId} {w w' : World} {op : Op Writer} {writer : Writer}
      (g : Ledger) (hcfg : cfg.Alike cfg') (hsize : cfg'.capacity < 2 ^ 64)
      (he : Entrance cfg' id w op id') (k : Circumstances)
      (hop : op (w.under id k) = .ok writer w') :
      Turn cfg ⟨none, id, w, g⟩ ⟨some writer, id', w'.under id' {}, g⟩
  | stay {cfg' : Config} {id id' : StoreId} {w w' : World} {op : Op Writer} {stop : Stop}
      (g : Ledger) (hcfg : cfg.Alike cfg') (he : Entrance cfg' id w op id') (k : Circumstances)
      (hop : op (w.under id k) = .error stop w') :
      Turn cfg ⟨none, id, w, g⟩ ⟨none, id', (w'.under id' {}).giveBack w.stores.length, g⟩

variable {cfg cfg' : Config} {q : Place} {l l' l'' : Log} {c c' c'' : Catalog} {n n' n'' : Moment}
  {id id' : StoreId} {w w' : World} {g : Ledger} {op : Op Writer} {capacity : Nat}

theorem Life.turn (h : Life cfg n.writer n.index n.world n.ledger) (ht : Turn cfg n n') :
    Life cfg n'.writer n'.index n'.world n'.ledger := by
  cases ht with
  | act writer id w g step => exact h.act step
  | drop writer id w g => exact h.drop
  | close id g hc => exact h.close hc
  | release g hc => exact h.release hc
  | enter g hcfg hsize he k hop => exact h.enter hcfg hsize he k hop
  | stay g hcfg he k hop => exact h.stay hcfg he k hop

theorem Store.Shut.steady (h : Shut id w) (hs : World.Steady w w') : Shut id w' := by
  obtain ⟨s, hget, hc⟩ := h
  obtain ⟨s', hget', hc'⟩ := hs.stores id s hget
  exact ⟨s', hget', hc' hc⟩

theorem World.quiet_giveBack (w : World) (n : Nat) : Quiet w (w.giveBack n) := by
  refine ⟨⟨List.prefix_refl _, fun i s hs => ?_⟩, rfl⟩
  refine ⟨if i < n then s else { s with closed := true }, ?_, ?_⟩
  · simp only [giveBack, List.getElem?_mapIdx, hs, Option.map_some]
  · split <;> simp

theorem Entrance.ends_marks (he : Entrance cfg id w op id') (w₁ : World) :
    Ends op w₁ (fun writer w' => World.Quiet w₁ w' ∧ w₁.marks.length ≤ writer.mark)
      fun _ w' => World.Quiet w₁ w' := by
  cases he with
  | shared _ _ => exact Writer.ends_marks_resume _ _ w₁
  | folder _ _ _ _ => exact Writer.ends_marks_openFolder _ w₁

theorem Entrance.index_or_shut (he : Entrance cfg id w op id') : id' = id ∨ Store.Shut id w := by
  cases he with
  | shared _ _ => exact .inl rfl
  | folder hs hc _ _ => exact .inr ⟨_, hs, hc⟩

theorem Held.idle {writer : Writer} (h : Held cfg q l c writer id w g) (hi : World.Idle w w') :
    Held cfg q l c writer id w' g :=
  { h with
    settled := h.settled.idle hi
    alone := by
      rw [hi.stores]
      exact h.alone }

theorem Left.idle (h : Left cfg q l c capacity id w g) (hi : World.Idle w w') :
    Left cfg q l c capacity id w' g :=
  { h with
    lies := by
      rw [hi.disk]
      exact h.lies
    index := by
      rw [hi.stores, hi.disk]
      exact h.index
    calm := hi.calm h.calm
    alone := by
      rw [hi.stores]
      exact h.alone }

namespace Moment

/-- A watermark that no writer moves any more. -/
def Frozen (n : Moment) (i : MarkId) : Prop :=
  i < n.world.marks.length ∧ ∀ writer, n.writer = some writer → writer.mark ≠ i

inductive Holds (cfg : Config) (q : Place) (l : Log) (c : Catalog) : Moment → Prop where
  | held {writer : Writer} {id : StoreId} {w : World} {g : Ledger}
      (h : Held cfg q l c writer id w g) : Holds cfg q l c ⟨some writer, id, w, g⟩
  | left {capacity : Nat} {id : StoreId} {w : World} {g : Ledger}
      (h : Left cfg q l c capacity id w g) : Holds cfg q l c ⟨none, id, w, g⟩

namespace Holds

theorem lies (h : Holds cfg q l c n) : ∃ capacity, l.Lies cfg q capacity c n.world.disk := by
  cases h with
  | held h => exact ⟨_, h.left.lies⟩
  | left h => exact ⟨_, h.lies⟩

theorem calm (h : Holds cfg q l c n) : n.world.Calm := by
  cases h with
  | held h => exact h.settled.calm
  | left h => exact h.calm

theorem index (h : Holds cfg q l c n) :
    Store.Shut n.index n.world ∨ Store.Keeps q n.index c n.world := by
  cases h with
  | held h => exact .inr (h.store ▸ h.settled.carries.index)
  | left h =>
    obtain ⟨s, hs, hp, -, hk⟩ := h.index
    cases hc : s.closed with
    | true => exact .inl ⟨s, hs, hc⟩
    | false => exact .inr ⟨s, hs, hc, hp, hk⟩

theorem durable_eq (h : Holds cfg q l c n) : n.ledger.durable = l.durable := by
  cases h with
  | held h => exact h.tells.durable
  | left h =>
    refine h.tells.durable.trans ?_
    rw [Log.durable, Log.cut_cut, Log.durable]

theorem idle (h : Holds cfg q l c n) (hi : World.Idle n.world w') :
    Holds cfg q l c { n with world := w' } := by
  cases h with
  | held h => exact .held (h.idle hi)
  | left h => exact .left (h.idle hi)

end Holds

/-- What is there of a log at a later moment. -/
structure Onward (l : Log) (c : Catalog) (n : Moment) (l' : Log) (c' : Catalog) (n' : Moment) :
    Prop where
  grows : l.cut.Grows l'.cut
  entries : c.chunks.entries <+: c'.chunks.entries
  index : n'.index = n.index ∨ Store.Shut n.index n'.world
  shut : ∀ id, Store.Shut id n.world → Store.Shut id n'.world
  frozen : ∀ i, n.Frozen i → n'.Frozen i ∧ n'.world.marks[i]? = n.world.marks[i]?

namespace Onward

theorem refl (l : Log) (c : Catalog) (n : Moment) : Onward l c n l c n :=
  ⟨.refl _, List.prefix_refl _, .inl rfl, fun _ h => h, fun _ h => ⟨h, rfl⟩⟩

theorem trans (h : Onward l c n l' c' n') (h' : Onward l' c' n' l'' c'' n'') :
    Onward l c n l'' c'' n'' where
  grows := h.grows.trans h'.grows
  entries := h.entries.trans h'.entries
  index := by
    rcases h.index with heq | hshut
    · rw [← heq]
      exact h'.index
    · exact .inr (h'.shut _ hshut)
  shut id hs := h'.shut id (h.shut id hs)
  frozen i hi := by
    obtain ⟨hi', hmark⟩ := h.frozen i hi
    obtain ⟨hi'', hmark'⟩ := h'.frozen i hi'
    exact ⟨hi'', hmark'.trans hmark⟩

theorem idle (h : Onward l c n l' c' n') (hi : World.Idle n'.world w') :
    Onward l c n l' c' { n' with world := w' } := by
  have hsteady := hi.steady
  refine ⟨h.grows, h.entries, h.index.imp (fun h => h) fun h => h.steady hsteady,
    fun id hs => (h.shut id hs).steady hsteady, fun i hf => ?_⟩
  obtain ⟨⟨hlt, hne⟩, hmark⟩ := h.frozen i hf
  exact ⟨⟨hi.marks ▸ hlt, hne⟩, hi.marks ▸ hmark⟩

theorem ofSteady {writer : Option Writer} (hg : l.cut.Grows l'.cut)
    (he : c.chunks.entries <+: c'.chunks.entries) (hs : World.Steady w w')
    (hi : id' = id ∨ Store.Shut id w) {g' : Ledger} :
    Onward l c ⟨writer, id, w, g⟩ l' c' ⟨none, id', w', g'⟩ where
  grows := hg
  entries := he
  index := hi.imp (fun h => h) fun h => h.steady hs
  shut _ h := h.steady hs
  frozen _ hi := ⟨⟨hi.1.trans_le hs.marks.length_le, fun _ h => by cases h⟩, hs.mark_eq hi.1⟩

theorem act {writer : Writer} (step : Step) (hg : l.cut.Grows l'.cut)
    (he : c.chunks.entries <+: c'.chunks.entries) {g' : Ledger} :
    Onward l c ⟨some writer, id, w, g⟩ l' c'
      ⟨some (step.take (writer, w)).2.1, id, (step.take (writer, w)).2.2, g'⟩ where
  grows := hg
  entries := he
  index := .inl rfl
  shut i hs := by
    obtain ⟨s, hget, hclosed⟩ := hs
    obtain ⟨s', hget', hclosed'⟩ := (step.aside_take (writer, w)).stores i s hget
    exact ⟨s', hget', hclosed' hclosed⟩
  frozen i hi := by
    have haside := step.aside_take (writer, w)
    have hne := hi.2 writer rfl
    refine ⟨⟨hi.1.trans_le haside.length, fun writer' hw => ?_⟩, haside.marks i hi.1 (Ne.symm hne)⟩
    cases hw
    exact haside.mark ▸ hne

theorem enter {writer : Writer} (hs : World.Steady w w') (hi : id' = id ∨ Store.Shut id w)
    (hmark : w.marks.length ≤ writer.mark) :
    Onward l c ⟨none, id, w, g⟩ l.cut c ⟨some writer, id', w', g⟩ where
  grows := by
    rw [Log.cut_cut]
    exact .refl _
  entries := List.prefix_refl _
  index := hi.imp (fun h => h) fun h => h.steady hs
  shut _ h := h.steady hs
  frozen i hi := by
    refine ⟨⟨hi.1.trans_le hs.marks.length_le, fun writer' hw => ?_⟩, hs.mark_eq hi.1⟩
    cases hw
    exact Nat.ne_of_gt (hi.1.trans_le hmark)

end Onward

end Moment

open Moment

theorem Turn.holds (hz : cfg.compressor.Lawful) (hc : cfg.cipher.Lawful)
    (h : Holds cfg q l c n) (ht : Turn cfg n n') :
    ∃ l' c', Holds cfg q l' c' n' ∧ Onward l c n l' c' n' := by
  cases ht with
  | act writer id w g step =>
    cases h with
    | held h =>
      obtain ⟨l', c', h', hgrows, hentries⟩ := h.act step
      exact ⟨l', c', .held h', .act step hgrows hentries⟩
  | drop writer id w g =>
    cases h with
    | held h => exact ⟨l, c, .left h.left, .ofSteady (.refl _) (List.prefix_refl _) (.refl w) (.inl rfl)⟩
  | @close writer w w' id g hclose =>
    cases h with
    | held h =>
      refine ⟨l, c, .left (h.left.close (h.store ▸ hclose)), ?_⟩
      exact .ofSteady (.refl _) (List.prefix_refl _) ((Store.quiet_close _ w).ok hclose).toSteady (.inl rfl)
  | @release id w w' g hclose =>
    cases h with
    | left h =>
      refine ⟨l, c, .left (h.close hclose), ?_⟩
      exact .ofSteady (.refl _) (List.prefix_refl _) ((Store.quiet_close _ w).ok hclose).toSteady (.inl rfl)
  | @enter cfg' id id' w w' op writer g ha hsize he k hop =>
    cases h with
    | left h =>
      obtain ⟨hquiet, hmark⟩ := (he.ends_marks _).ok hop
      have hsteady : World.Steady w (w'.under id' {}) :=
        (((World.quiet_under id k).trans hquiet).trans (World.quiet_under id' {})).toSteady
      exact ⟨l.cut, c, .held (h.enter hz hc ha hsize he hop), .enter hsteady he.index_or_shut hmark⟩
  | @stay cfg' id id' w w' op stop g ha he k hop =>
    cases h with
    | left h =>
      obtain ⟨l', hcut, h'⟩ := h.stay ha he hop
      have hsteady := (((World.quiet_under id k).trans ((he.ends_marks _).error hop)).trans
        ((World.quiet_under id' {}).trans (World.quiet_giveBack _ w.stores.length))).toSteady
      exact ⟨l', c, .left h', .ofSteady (hcut ▸ .refl _) (List.prefix_refl _) hsteady
        he.index_or_shut⟩

end RecordLog
