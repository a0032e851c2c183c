import Mathlib
import RecordLog.Proofs.Turns
import RecordLog.Proofs.UnlinkedScans

/-!
# The life of a log without a name that it needs no more

Once a segment is sealed, nothing that happens to a log depends on the name of its live file any
more: not what a writer does, and not who opens the log after it.
-/

namespace RecordLog

open World

variable {α : Type} {cfg cfg' : Config} {q : Place} {l : Log} {c : Catalog} {id id' : StoreId}
  {w w' : World} {g : Ledger} {first capacity : Nat} {gone : String} {op : Op Writer}
  {n n' : Moment}

theorem World.Lacks.alike (h : Lacks cfg q gone w w') (ha : cfg.Alike cfg') :
    Lacks cfg' q gone w w' where
  loose := ⟨ha.path ▸ h.loose.home, h.loose.file⟩
  eq := h.eq

theorem Mirrored.alike {r r' : EStateM.Result Stop World α}
    (h : Mirrored (World.Lacks cfg q gone) r r') (ha : cfg.Alike cfg') :
    Mirrored (World.Lacks cfg' q gone) r r' := by
  cases h with
  | ok h => exact .ok (h.alike ha)
  | error h => exact .error (h.alike ha)

namespace Store

theorem mirrored_within {work : Tables → Op (α × Tables)} (hl : Lacks cfg q gone w w')
    (hwork : ∀ t w₁ w₁', begin id .update w = .ok t w₁ → Lacks cfg q gone w₁ w₁' →
      Mirrored (Lacks cfg q gone) (work t w₁) (work t w₁')) :
    Mirrored (Lacks cfg q gone) (within id work w) (within id work w') := by
  refine (mirrors_begin .update w w' hl).bind fun t w₁ w₁' hx h₁ => ?_
  refine Mirrored.bind ((hwork t w₁ w₁' hx h₁).catch_stop fun stop w₂ w₂' h₂ =>
    mirrors_abandon stop w₂ w₂' h₂) fun r w₂ w₂' _ h₂ => ?_
  exact (mirrors_commit r.2).bind (fun _ => mirrors_pure _) w₂ w₂' h₂

theorem mirrors_close (id : StoreId) : Mirrors (Lacks cfg q gone) (close id) := by
  refine mirrors_modify ?_
  rintro w _ ⟨hl, rfl⟩
  have hstores : (w.without (q ++ [gone])).stores = w.stores := rfl
  rw [hstores]
  cases w.stores[id]? with
  | none => exact ⟨hl, rfl⟩
  | some s => exact ⟨hl, rfl⟩

end Store

theorem Writer.mirrored_resume (hk : Store.Keeps q id c w)
    (hd : c.buffer = some (l.cut.state capacity)) (hne : l.base ≠ first)
    (hl : World.Lacks cfg q (bufferFileName first) w w') :
    Mirrored (World.Lacks cfg q (bufferFileName first)) (resume cfg id w) (resume cfg id w') := by
  refine Mirrored.bind (Store.mirrored_within hl fun t w₁ w₁' hx h₁ => ?_) fun r w₂ w₂' _ h₂ => ?_
  · obtain ⟨-, ht, -⟩ := (Store.ends_begin hk.offers .update).ok hx
    refine (Op.mirrors_ofExcept _ w₁ w₁' h₁).bind ?_
    rintro ⟨stats, t₁⟩ w₂ w₂' hstats h₂
    obtain ⟨-, hstats⟩ := (Op.ends_ofExcept _ w₁).ok hstats
    obtain ⟨c₁, hc₁, ht₁⟩ := ht.answer hstats
    obtain ⟨rfl, rfl⟩ := Prod.mk.inj (Except.ok.inj hc₁)
    refine (Op.mirrors_ofExcept _ w₂ w₂' h₂).bind ?_
    rintro ⟨state, t₂⟩ w₃ w₃' hstate h₃
    obtain ⟨-, hstate⟩ := (Op.ends_ofExcept _ w₂).ok hstate
    obtain ⟨c₂, hc₂, -⟩ := ht₁.answer hstate
    obtain ⟨rfl, rfl⟩ := Prod.mk.inj (Except.ok.inj hc₂)
    dsimp only
    rw [hd]
    exact ((Buffer.mirrors_resume (LogName.live l.base).plain
      fun hn => hne (bufferFileName_injective hn)).bind fun _ => mirrors_pure _) w₃ w₃' h₃
  · obtain rfl : w₂' = w₂.without _ := h₂.eq
    exact .ok ⟨h₂.loose, rfl⟩

theorem Left.mirrored_enter (h : Left cfg q l c capacity id w g) (hne : l.base ≠ first)
    (hl : World.Lacks cfg q (bufferFileName first) w w') (ha : cfg.Alike cfg')
    (he : Entrance cfg' id w op id') (k : Circumstances) :
    Entrance cfg' id w' op id' ∧
      Mirrored (World.Lacks cfg q (bufferFileName first)) (op (w.under id k))
        (op (w'.under id k)) := by
  obtain ⟨s, hs, hp, -, hk⟩ := h.index
  obtain rfl : w' = w.without _ := hl.eq
  have hl := hl.alike ha
  cases he with
  | shared hs' hc =>
    rw [hs] at hs'
    cases hs'
    have hunder : (w.under id k).stores[id]? = some { s with failCommits := k.refuses } := by
      rw [World.getElem?_stores_under, hs]
      rfl
    exact ⟨.shared hs hc, (Writer.mirrored_resume ⟨_, hunder, hc, hp, hk⟩ h.lies.described hne
      ⟨hl.loose, rfl⟩).alike ha.symm⟩
  | @folder s' f hs' hc hm hf =>
    rw [hs] at hs'
    cases hs'
    have hgone : indexFileName ≠ bufferFileName first := (LogName.live first).ne_index.symm
    have hf' : (w.without _).disk.find (cfg'.locate indexFileName) = .ok (.file f) :=
      (hl.loose.find_without plain_index hgone).trans hf
    refine ⟨.folder hs hc hm hf', ?_⟩
    rw [Writer.openFolder_of_closed hl.loose.home hs hc hm hk h.alone hf k,
      Writer.openFolder_of_closed (w := w.without _) hl.loose.lost.home hs hc hm
        (hk.without (.live first)) h.alone hf' k]
    have hlen : (w.under id k).stores.length = w.stores.length := by
      simp [World.under]
    have hnew : ((w.under id k).stores ++ [{ medium := .file f, watched := false }])[
        w.stores.length]? = some { medium := .file f, watched := false } := by
      rw [← hlen]
      simp
    rw [hm] at hk
    have hkeeps : Store.Keeps q w.stores.length c { w.under id k with
        stores := (w.under id k).stores ++ [{ medium := .file f, watched := false }] } :=
      ⟨_, hnew, rfl, rfl, hk⟩
    exact (Writer.mirrored_resume hkeeps h.lies.described hne ⟨hl.loose, rfl⟩).alike ha.symm

/-- What happens to a log happens to it without the name too, and comes to the same. -/
theorem Turn.without (h : Moment.Holds cfg q l c n) (hlt : first < l.base)
    (hl : World.Lacks cfg q (bufferFileName first) n.world w') (ht : Turn cfg n n') :
    ∃ w₁, Turn cfg { n with world := w' } { n' with world := w₁ } ∧
      World.Lacks cfg q (bufferFileName first) n'.world w₁ := by
  cases ht with
  | act writer id w g step =>
    cases h with
    | held h =>
      have hs : Writer.Lacks writer.config q first (writer, w) (writer, w') :=
        ⟨rfl, rfl, h.settled.carries.file_eq.trans (congrArg bufferFileName
          h.settled.carries.start_eq.symm), h.settled.carries.start_eq ▸ Nat.le_of_lt hlt,
          hl.alike h.alike⟩
      obtain ⟨hanswer, hnext⟩ := hs.take step
      have hturn : Turn cfg ⟨some writer, id, w', g⟩ _ := .act writer id w' g step
      rw [hanswer, hnext.same] at hturn
      exact ⟨_, hturn, hnext.world.alike h.alike.symm⟩
  | drop writer id w g => exact ⟨w', .drop writer id w' g, hl⟩
  | @close writer w w₁ id g hc =>
    obtain ⟨w₂, hc', h₁⟩ := (Store.mirrors_close writer.store w w' hl).exists_of_ok hc
    exact ⟨w₂, .close id g hc', h₁⟩
  | @release id w w₁ g hc =>
    obtain ⟨w₂, hc', h₁⟩ := (Store.mirrors_close id w w' hl).exists_of_ok hc
    exact ⟨w₂, .release g hc', h₁⟩
  | @enter cfg' id id' w w₁ op writer g ha hsize he k hop =>
    cases h with
    | left h =>
      obtain ⟨he', henter⟩ := h.mirrored_enter (Nat.ne_of_gt hlt) hl ha he k
      obtain ⟨w₂, hop', h₁⟩ := henter.exists_of_ok hop
      exact ⟨_, .enter g ha hsize he' k hop', ⟨h₁.loose, by rw [h₁.eq]; rfl⟩⟩
  | @stay cfg' id id' w w₁ op stop g ha he k hop =>
    cases h with
    | left h =>
      obtain ⟨he', henter⟩ := h.mirrored_enter (Nat.ne_of_gt hlt) hl ha he k
      obtain ⟨w₂, hop', h₁⟩ := henter.exists_of_error hop
      refine ⟨_, .stay g ha he' k hop', ⟨h₁.loose, ?_⟩⟩
      rw [h₁.eq, hl.eq]
      rfl

theorem Moment.turns_without (hz : cfg.compressor.Lawful) (hc : cfg.cipher.Lawful)
    (h : Holds cfg q l c n) (hlt : first < l.base)
    (hl : World.Lacks cfg q (bufferFileName first) n.world w')
    (hturns : Relation.ReflTransGen (Turn cfg) n n') :
    ∃ w₁ l₁ c₁, Relation.ReflTransGen (Turn cfg) { n with world := w' } { n' with world := w₁ } ∧
      World.Lacks cfg q (bufferFileName first) n'.world w₁ ∧ Holds cfg q l₁ c₁ n' ∧
      first < l₁.base := by
  induction hturns with
  | refl => exact ⟨w', l, c, .refl, hl, h, hlt⟩
  | tail _ ht ih =>
    obtain ⟨w₁, l₁, c₁, hturns, hl₁, h₁, hlt₁⟩ := ih
    obtain ⟨w₂, ht', hl₂⟩ := ht.without h₁ hlt₁ hl₁
    obtain ⟨l₂, c₂, h₂, ho⟩ := ht.holds hz hc h₁
    exact ⟨w₂, l₂, c₂, hturns.tail ht', hl₂, h₂, hlt₁.trans_le ho.grows.base_le⟩

end RecordLog
