import Mathlib
import RecordLog.Proofs.Calls
import RecordLog.Proofs.Folder
import RecordLog.Proofs.IndexTables

/-!
# What units of work leave behind

`Keeps` says that an open index keeps the values of a catalog, in memory or in a file that is none
of the log's own. A unit of work that fails leaves the world as it was, and one that ends well
changes the index alone, all at once.
-/

namespace RecordLog

variable {α : Type} {q : Place} {id : StoreId} {c c' : Catalog} {w w' : World}

namespace Medium

def Keeps (q : Place) (c : Catalog) (d : Disk) : Medium → Prop
  | .memory c' => c' = c
  | .file id => d.Apart q id ∧
      ∃ t damage, d.content id = .tables t damage ∧ damage.isZero = true ∧ t.Encodes c

def put (c : Catalog) : Medium → Medium
  | .memory _ => .memory c
  | .file id => .file id

def inFile : Medium → Bool
  | .memory _ => false
  | .file _ => true

theorem Keeps.changes {d d' : Disk} {m : Medium} {F : Footprint} (h : m.Keeps q c d)
    (hs : d.Sound) (hF : F.InLog q d) (hc : d.Changes F d') : m.Keeps q c d' := by
  cases m with
  | memory c' => exact h
  | file id =>
    obtain ⟨ha, t, damage, ht, hz, he⟩ := h
    obtain ⟨ha', hcont⟩ := ha.changes hs hF hc
    exact ⟨ha', t, damage, hcont.trans ht, hz, he⟩

end Medium

namespace Store

/-- An index keeps the values of a catalog. -/
def Keeps (q : Place) (id : StoreId) (c : Catalog) (w : World) : Prop :=
  ∃ s, w.stores[id]? = some s ∧ s.closed = false ∧ s.poisoned = false ∧ s.medium.Keeps q c w.disk

/-- An open index whose tables stand for the values of a catalog, wherever it has them. -/
def Offers (id : StoreId) (c : Catalog) (w : World) : Prop :=
  ∃ s, w.stores[id]? = some s ∧ s.closed = false ∧ s.poisoned = false ∧
    (s.tables w.disk).Represents c

def Shut (id : StoreId) (w : World) : Prop := ∃ s, w.stores[id]? = some s ∧ s.closed = true

theorem shut_idle (hi : World.Idle w w') : Shut id w' ↔ Shut id w := by
  rw [Shut, Shut, hi.stores]

/-- An index took over other values and nothing else changed. -/
structure Commits (q : Place) (id : StoreId) (c : Catalog) (w w' : World) : Prop where
  keeps : Keeps q id c w'
  disk : ∃ F : Footprint, F.places = [] ∧ (∀ i ∈ F.files, w.disk.Apart q i) ∧
    w.disk.Changes F w'.disk
  stores : ∀ s, w.stores[id]? = some s →
    w'.stores = w.stores.set id { s with medium := s.medium.put c }
  marks : w'.marks = w.marks
  heads : w'.heads = w.heads
  returns : w.Returns → w'.Returns
  calm : w.Calm → w'.Calm

theorem Keeps.idle (h : Keeps q id c w) (hi : World.Idle w w') : Keeps q id c w' := by
  obtain ⟨s, hs, hc, hp, hk⟩ := h
  exact ⟨s, hi.stores ▸ hs, hc, hp, hi.disk ▸ hk⟩

theorem Keeps.changes {F : Footprint} (h : Keeps q id c w) (hs : w.disk.Sound)
    (hF : F.InLog q w.disk) (hc : World.Changes F w w') : Keeps q id c w' := by
  obtain ⟨s, hst, hcl, hp, hk⟩ := h
  exact ⟨s, hc.stores ▸ hst, hcl, hp, hk.changes hs hF hc.disk⟩

theorem Keeps.represents {s : Store} (hk : s.medium.Keeps q c w.disk) :
    (s.tables w.disk).Represents c := by
  cases hm : s.medium with
  | memory c' =>
    rw [hm] at hk
    simp only [tables, hm]
    exact hk
  | file file =>
    rw [hm] at hk
    obtain ⟨-, t, damage, ht, -, he⟩ := hk
    simp only [tables, hm, ht]
    exact he

theorem inFile_tables (s : Store) (d : Disk) : (s.tables d).inFile = s.medium.inFile := by
  unfold tables
  cases s.medium with
  | memory c => rfl
  | file f =>
    dsimp only
    split <;> rfl

theorem Keeps.offers (h : Keeps q id c w) : Offers id c w := by
  obtain ⟨s, hs, hc, hp, hk⟩ := h
  exact ⟨s, hs, hc, hp, Keeps.represents hk⟩

theorem Offers.idle (h : Offers id c w) (hi : World.Idle w w') : Offers id c w' := by
  obtain ⟨s, hs, hc, hp, hr⟩ := h
  exact ⟨s, hi.stores ▸ hs, hc, hp, hi.disk ▸ hr⟩

theorem ends_lookup {s : Store} (hs : w.stores[id]? = some s) :
    Ends (lookup id) w (fun s' w' => s' = s ∧ w' = w) fun _ _ => False :=
  ends_of_eq_ok (by simp only [lookup, hs]) ⟨rfl, rfl⟩

/-- A unit of work begins with the tables as they are, unless the index refuses or a call fails. -/
theorem ends_begin_eq {s : Store} (hs : w.stores[id]? = some s) (hook : Hook) :
    Ends (begin id hook) w
      (fun t w' => World.Idle w w' ∧ s.check = .ok () ∧ t = s.tables w.disk)
      fun stop w' => World.Idle w w' ∧
        ((∃ e, s.check = .error e ∧ stop = .error e) ∨ Failed w stop ∧ ¬ w.Calm) := by
  have htail (w₁ : World) (h₁ : World.Idle w w₁) :
      Ends (do
        let s ← lookup id
        Op.ofExcept s.check
        pure (s.tables (← get).disk)) w₁
        (fun t w' => World.Idle w w' ∧ s.check = .ok () ∧ t = s.tables w.disk)
        fun stop w' => World.Idle w w' ∧
          ((∃ e, s.check = .error e ∧ stop = .error e) ∨ Failed w stop ∧ ¬ w.Calm) := by
    refine Ends.bind_of_eq (a := s) (t := w₁) (by simp only [lookup, h₁.stores, hs]) ?_
    cases hcheck : s.check with
    | ok u => exact ends_of_eq_ok rfl ⟨h₁, rfl, congrArg s.tables h₁.disk⟩
    | error e => exact ends_of_eq_error rfl ⟨h₁, .inl ⟨e, rfl, rfl⟩⟩
  have hpass (w₁ : World) (h₁ : World.Idle w w₁) :
      Ends (Op.pass hook) w₁ (fun _ w' => World.Idle w w') fun stop w' => World.Idle w w' ∧
        ((∃ e, s.check = .error e ∧ stop = .error e) ∨ Failed w stop ∧ ¬ w.Calm) := by
    refine (Op.ends_pass hook w₁).mono (fun _ _ h₂ => h₁.trans h₂) ?_
    rintro stop w' ⟨h₂, hf, hcalm⟩
    exact ⟨h₁.trans h₂, .inr ⟨fun hr => hf (h₁.returns hr), fun hw => hcalm (h₁.calm hw)⟩⟩
  refine Ends.bind_of_eq (a := s) (t := w) (by simp only [lookup, hs]) ?_
  split
  · split
    · refine (Op.ends_trace _ _).bind (fun _ w₁ h₁ => ?_) fun _ _ hF => hF.elim
      exact (hpass w₁ h₁).bind (fun _ w₂ h₂ => htail w₂ h₂) fun _ _ hE => hE
    · exact (hpass w (.refl w)).bind (fun _ w₁ h₁ => htail w₁ h₁) fun _ _ hE => hE
  · exact htail w (.refl w)

theorem ends_begin (ho : Offers id c w) (h : Hook) :
    Ends (begin id h) w
      (fun t w' => World.Idle w w' ∧ t.Represents c ∧
        ∀ s, w.stores[id]? = some s → t.inFile = s.medium.inFile)
      fun stop w' => World.Idle w w' ∧ Failed w stop ∧ ¬ w.Calm := by
  obtain ⟨s, hs, hc, hp, hrep⟩ := ho
  have hcheck : s.check = .ok () := by simp [check, hc, hp]
  refine (ends_begin_eq hs h).mono ?_ ?_
  · rintro t w' ⟨hi, -, rfl⟩
    refine ⟨hi, hrep, fun s' hs' => ?_⟩
    obtain rfl := Option.some.inj (hs.symm.trans hs')
    exact s.inFile_tables w.disk
  · rintro stop w' ⟨hi, ⟨e, he, -⟩ | hfailed⟩
    · rw [hcheck] at he
      cases he
    · exact ⟨hi, hfailed⟩

theorem commits_memory {s : Store} {c₀ : Catalog} (hs : w.stores[id]? = some s)
    (hc : s.closed = false) (hp : s.poisoned = false) (hm : s.medium = .memory c₀) :
    Commits q id c' w { w with stores := w.stores.set id { s with medium := .memory c' } } where
  keeps := by
    obtain ⟨hlt, -⟩ := List.getElem?_eq_some_iff.1 hs
    exact ⟨{ s with medium := .memory c' }, List.getElem?_set_self hlt, hc, hp, rfl⟩
  disk := ⟨{}, rfl, fun i hi => by simp at hi, Disk.Changes.refl _ _⟩
  stores s' hs' := by
    obtain rfl : s = s' := Option.some.inj (hs.symm.trans hs')
    simp [Medium.put, hm]
  marks := rfl
  heads := rfl
  returns h := h
  calm h := h

theorem commits_file {s : Store} {t : StoredTables} {file : FileId} (hsound : w.disk.Sound)
    (hs : w.stores[id]? = some s) (hc : s.closed = false) (hp : s.poisoned = false)
    (hm : s.medium = .file file) (ha : w.disk.Apart q file) (ht : t.Encodes c') :
    Commits q id c' w { w with disk := w.disk.setContent file (.tables t []) } where
  keeps := by
    have hthere : file < w.disk.files.length := by
      obtain ⟨p, hp, -⟩ := ha
      exact hsound.there p file hp
    have hcontent : (w.disk.setContent file (.tables t [])).content file = .tables t [] := by
      rw [Disk.content_setContent, if_pos ⟨rfl, hthere⟩]
    have hkeeps : (Medium.file file).Keeps q c' (w.disk.setContent file (.tables t [])) :=
      ⟨ha, t, [], hcontent, rfl, ht⟩
    exact ⟨s, hs, hc, hp, hm ▸ hkeeps⟩
  disk := by
    refine ⟨{ files := [file] }, rfl, fun i hi => ?_,
      Disk.Changes.setContent (by simp) (.inl (by simp))⟩
    simp only [List.mem_singleton] at hi
    exact hi ▸ ha
  stores s' hs' := by
    obtain rfl : s = s' := Option.some.inj (hs.symm.trans hs')
    have hput : ({ s with medium := s.medium.put c' } : Store) = s := by
      rw [hm, Medium.put, ← hm]
    obtain ⟨hlt, hget⟩ := List.getElem?_eq_some_iff.1 hs
    rw [hput, ← hget, List.set_getElem_self]
  marks := rfl
  heads := rfl
  returns h := h
  calm h := h

theorem ends_commit {s : Store} {t : Tables} (hsound : w.disk.Sound) (hk : Keeps q id c w)
    (hs : w.stores[id]? = some s) (ht : t.Represents c') (hf : t.inFile = s.medium.inFile) :
    Ends (commit id t) w (fun _ w' => Commits q id c' w w')
      fun stop w' => w' = w ∧ (∃ e, stop = .error e) ∧ s.failCommits = true := by
  obtain ⟨s₀, hs₀, hc, hp, hk⟩ := hk
  obtain rfl : s₀ = s := Option.some.inj (hs₀.symm.trans hs)
  refine (ends_lookup hs).bind ?_ fun _ _ hF => hF.elim
  rintro s' w' ⟨hs', rfl⟩
  rw [hs']
  by_cases hfail : s₀.failCommits = true
  · simp only [hfail, if_true]
    exact Ends.bind (P := fun _ _ => False) (ends_throw ⟨rfl, ⟨_, rfl⟩, trivial⟩)
      (fun _ _ hF => hF.elim) fun _ _ h => h
  · rw [if_neg hfail]
    cases hm : s₀.medium with
    | memory c₀ =>
      cases t with
      | stored t => simp [Tables.inFile, Medium.inFile, hm] at hf
      | plain c₁ =>
        obtain rfl : c₁ = c' := ht
        exact ends_modify (commits_memory hs hc hp hm)
    | file file =>
      cases t with
      | plain c₁ => simp [Tables.inFile, Medium.inFile, hm] at hf
      | stored t =>
        rw [hm] at hk
        exact ends_modify (commits_file hsound hs hc hp hm hk.1 ht)

theorem Commits.after_idle {w₁ : World} (hi : World.Idle w w₁) (h : Commits q id c w₁ w') :
    Commits q id c w w' where
  keeps := h.keeps
  disk := hi.disk ▸ h.disk
  stores := hi.stores ▸ h.stores
  marks := h.marks.trans hi.marks
  heads := h.heads.trans hi.heads
  returns hr := h.returns (hi.returns hr)
  calm hc := h.calm (hi.calm hc)

theorem ends_update {p : Program α} (hsound : w.disk.Sound) (hk : Keeps q id c w)
    (hp : ∀ inFile, p.Smooth inFile c) :
    Ends (update id p) w (fun a w' => ∃ c', p.outcome? c = some (a, c') ∧ Commits q id c' w w')
      fun stop w' => World.Idle w w' ∧ Failed w stop := by
  have hb := ends_begin hk.offers .update
  cases hx : begin id .update w with
  | error stop w₁ =>
    obtain ⟨hi, hf, -⟩ := hb.error hx
    exact ends_of_eq_error (by simp only [update, transact, hx]) ⟨hi, hf⟩
  | ok t w₁ =>
    obtain ⟨hi, ht, hform⟩ := hb.ok hx
    obtain ⟨a, t', hrun⟩ := Tables.run_of_smooth ht (hp _)
    obtain ⟨c', hout, ht'⟩ := Tables.run_of_represents ht hrun
    have hk₁ := hk.idle hi
    obtain ⟨s, hs, -⟩ := hk₁
    have hf : t'.inFile = s.medium.inFile :=
      (Tables.inFile_run hrun).trans (hform s (hi.stores ▸ hs))
    have hc := ends_commit (hi.disk ▸ hsound) (hk.idle hi) hs ht' hf
    have heq : update id p w = (commit id t' *> pure a) w₁ := by
      have : t.run p = ((t.run p).1, .ok (a, t')) := by rw [← hrun]
      rw [update, transact, hx]
      dsimp only
      rw [this]
      rfl
    cases hcx : commit id t' w₁ with
    | ok u w' =>
      have : update id p w = .ok a w' := by
        rw [heq]
        simp only [SeqRight.seqRight, EStateM.seqRight, hcx, pure,
          EStateM.pure]
      exact ends_of_eq_ok this ⟨c', hout, Commits.after_idle hi (hc.ok hcx)⟩
    | error stop w' =>
      have : update id p w = .error stop w' := by
        rw [heq]
        simp only [SeqRight.seqRight, EStateM.seqRight, hcx]
      obtain ⟨rfl, he, -⟩ := hc.error hcx
      exact ends_of_eq_error this ⟨hi, fun _ => he⟩

theorem ends_begin_of_shut (h : Shut id w) (hc : w.Calm) (hook : Hook) :
    Ends (begin id hook) w (fun _ _ => False)
      fun stop w' => stop = .error .closed ∧ World.Idle w w' := by
  obtain ⟨s, hs, hclosed⟩ := h
  have hcheck : s.check = .error .closed := by simp [check, hclosed]
  refine (ends_begin_eq hs hook).mono ?_ ?_
  · rintro t w' ⟨-, hok, -⟩
    rw [hcheck] at hok
    cases hok
  · rintro stop w' ⟨hi, ⟨e, he, rfl⟩ | ⟨-, hnot⟩⟩
    · rw [hcheck] at he
      cases he
      exact ⟨rfl, hi⟩
    · exact absurd hc hnot

theorem ends_request_of_shut (h : Shut id w) (hc : w.Calm) (r : Request) :
    Ends (read id (Program.request r)) w (fun _ _ => False)
      fun stop w' => stop = .error .closed ∧ World.Idle w w' := by
  have hbegin := ends_begin_of_shut h hc .read
  cases hx : begin id .read w with
  | ok t w₁ => exact (hbegin.ok hx).elim
  | error stop w₁ => exact ends_of_eq_error (by simp only [read, transact, hx]) (hbegin.error hx)

/-- An index in a file has only numbers of 64 bits to read. -/
def Legible (id : StoreId) (c : Catalog) (w : World) : Prop :=
  ∀ s, w.stores[id]? = some s → s.medium.inFile = true → c.Small

theorem ends_request (ho : Offers id c w) (r : Request) :
    Ends (read id (Program.request r)) w
      (fun a w' => World.Idle w w' ∧ ∃ c', c.answer r = .ok (a, c'))
      fun stop w' => World.Idle w w' ∧ Failed w stop ∧ (w.Calm →
        ¬ ∀ s, w.stores[id]? = some s → s.medium.inFile = true → r.Readable c) := by
  have hb := ends_begin ho .read
  cases hx : begin id .read w with
  | error stop w₁ =>
    obtain ⟨hi, hf, hcalm⟩ := hb.error hx
    exact ends_of_eq_error (by simp only [read, transact, hx]) ⟨hi, hf, fun hc => absurd hc hcalm⟩
  | ok t w₁ =>
    obtain ⟨hi, ht, hform⟩ := hb.ok hx
    obtain ⟨s, hs, -⟩ := ho
    cases ha : t.answer r with
    | ok at' =>
      refine ends_of_eq_ok (a := at'.1) (t := w₁) ?_ ⟨hi, ?_⟩
      · simp only [read, transact, hx, Program.request, Tables.run, ha]
        rfl
      · obtain ⟨c', hc', -⟩ := ht.answer ha
        exact ⟨c', hc'⟩
    | error e =>
      refine ends_of_eq_error (e := .error e) (t := w₁) ?_ ⟨hi, Failed.error w e, fun _ hr => ?_⟩
      · have hs₁ : w₁.stores[id]? = some s := hi.stores ▸ hs
        simp only [read, transact, hx, Program.request, Tables.run, ha, abandon, bind,
          EStateM.bind, lookup, hs₁]
        rfl
      · obtain ⟨a, t', hok⟩ := ht.exists_answer fun hf => hr s hs ((hform s hs).symm.trans hf)
        rw [ha] at hok
        cases hok

end Store

end RecordLog
