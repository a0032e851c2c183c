import Mathlib
import RecordLog.Proofs.NewFolders
import RecordLog.Proofs.Reopening

/-!
# Opening the log of a folder

The index of a folder is in a file there, which is none of the log's own. Opening it adds an index
to the world if no other one that is open has the file, and a new file starts an empty index.
-/

namespace RecordLog

open Record Segment

variable {q : Place} {id : StoreId} {cfg : Config} {w w' : World} {f : FileId}

theorem plain_index : Path.Plain indexFileName where
  slash := by decide
  stays := by decide
  up := by decide
  nul := by decide

theorem apart_index {d : Disk} (h : d.names.get? (q ++ [indexFileName]) = some (.file f)) :
    d.Apart q f := by
  refine ⟨_, h, fun name hn he => ?_⟩
  have : indexFileName = name := by simpa using he
  exact hn.ne_index this.symm

namespace Store

/-- No other index that is open has the file of this one. -/
def Alone (id : StoreId) (ss : List Store) : Prop :=
  ∀ s f, ss[id]? = some s → s.medium = .file f →
    ∀ j s', ss[j]? = some s' → j ≠ id → holds f s' = false

theorem Alone.touched {ss ss' : List Store} (h : Alone id ss) (ht : Touched id ss ss') :
    Alone id ss' := by
  rcases ht with rfl | ⟨s₀, c, hs₀, rfl⟩
  · exact h
  · intro s f hs hf j s' hj hne
    obtain ⟨hlt, -⟩ := List.getElem?_eq_some_iff.1 hs₀
    rw [List.getElem?_set_self hlt] at hs
    rw [List.getElem?_set_ne (Ne.symm hne)] at hj
    cases hs
    refine h s₀ f hs₀ ?_ j s' hj hne
    cases hm : s₀.medium with
    | memory c' => simp [Medium.put, hm] at hf
    | file f' => simpa [Medium.put, hm] using hf

theorem alone_append {ss : List Store} {s : Store}
    (h : ∀ f, s.medium = .file f → ss.any (holds f) = false) : Alone ss.length (ss ++ [s]) := by
  intro s₀ f hs hf j s' hj hne
  simp only [List.getElem?_concat_length, Option.some.injEq] at hs
  subst hs
  obtain ⟨hlt, hget⟩ := List.getElem?_eq_some_iff.1 hj
  rw [List.length_append, List.length_singleton] at hlt
  have hj' : j < ss.length := Nat.lt_of_le_of_ne (Nat.le_of_lt_succ hlt) hne
  rw [List.getElem_append_left hj'] at hget
  have := List.any_eq_false.1 (h f hf) _ (List.getElem_mem hj')
  rw [hget] at this
  exact Bool.eq_false_iff.2 this

theorem makeFolders_of_enter (operation : String) {path : Path} (h : w.disk.enter path = .ok q) :
    Op.makeFolders operation path w = .ok () w := by
  simp only [Op.makeFolders, Disk.createFolders_of_enter h]

theorem openFile_eq {t : StoredTables} {damage : Sparse} (hq : w.disk.enter cfg.path = .ok q)
    (hr : cfg.Reaches indexFileName)
    (hf : w.disk.names.get? (q ++ [indexFileName]) = some (.file f))
    (ht : w.disk.content f = .tables t damage) (hz : damage.isZero = true)
    (hfree : w.stores.any (holds f) = false) :
    openFile cfg.path w = .ok w.stores.length
      { w with stores := w.stores ++ [{ medium := .file f, watched := false }] } := by
  have hopen : w.disk.openOrCreate (Path.join cfg.path indexFileName) = .ok (f, w.disk) :=
    Disk.openOrCreate_of_file hq plain_index hr hf
  simp only [openFile, bind, EStateM.bind, makeFolders_of_enter _ (Disk.enter_moves hq), get, getThe,
    MonadStateOf.get, EStateM.get, hopen, hfree, Bool.false_eq_true, if_false, ht, hz,
    if_true, set, MonadStateOf.set, EStateM.set, add]

/-- No index is in a folder, or one that is empty. -/
def Vacant (q : Place) (d : Disk) : Prop :=
  ∀ f, d.names.get? (q ++ [indexFileName]) = some (.file f) →
    (∃ x, d.content f = .bytes x ∧ x.size = 0) ∨
      ∃ t damage, d.content f = .tables t damage ∧ t.Encodes {}

theorem encodes_empty : StoredTables.Encodes {} {} := ⟨rfl, rfl, rfl, rfl⟩

def Linked (q : Place) (cfg : Config) (id : StoreId) (w : World) : Prop :=
  cfg.Reaches indexFileName ∧ ∃ s f, w.stores[id]? = some s ∧ s.medium = .file f ∧
    w.disk.names.get? (q ++ [indexFileName]) = some (.file f)

theorem Linked.moves {start : Nat} (h : Linked q cfg id w) (hm : World.Moves q id start w w') :
    Linked q cfg id w' := by
  obtain ⟨hreach, s, f, hs, hf, hname⟩ := h
  have hname' := (hm.others indexFileName fun hn => hn.ne_index rfl).trans hname
  rcases hm.stores with heq | ⟨s', c, hs', heq⟩
  · exact ⟨hreach, s, f, heq ▸ hs, hf, hname'⟩
  · obtain ⟨hlt, -⟩ := List.getElem?_eq_some_iff.1 hs'
    rw [hs] at hs'
    cases hs'
    refine ⟨hreach, _, f, by rw [heq, List.getElem?_set_self hlt], ?_, hname'⟩
    simp only [hf, Medium.put]

structure OpenedNew (q : Place) (cfg : Config) (w : World) (id : StoreId) (w' : World) : Prop where
  home : w'.disk.enter cfg.path = .ok q
  sound : w'.disk.Sound
  keeps : Keeps q id {} w'
  alone : Alone id w'.stores
  linked : Linked q cfg id w'
  willing : ∀ s, w'.stores[id]? = some s → s.failCommits = false
  returns : w.Returns → w'.Returns
  calm : w.Calm → w'.Calm

theorem openedNew (v : World) {t : StoredTables} {damage : Sparse}
    (hq : v.disk.enter cfg.path = .ok q) (hs : v.disk.Sound) (hreach : cfg.Reaches indexFileName)
    (hf : v.disk.names.get? (q ++ [indexFileName]) = some (.file f))
    (ht : v.disk.content f = .tables t damage) (hz : damage.isZero = true) (he : t.Encodes {})
    (hfree : v.stores.any (holds f) = false) (hv : v.faults = w.faults) :
    OpenedNew q cfg w v.stores.length
      { v with stores := v.stores ++ [{ medium := .file f, watched := false }] } where
  home := hq
  sound := hs
  keeps := ⟨{ medium := .file f, watched := false }, by simp, rfl, rfl, apart_index hf, t, damage,
    ht, hz, he⟩
  alone := alone_append fun f' hf' => by
    cases hf'
    exact hfree
  linked := ⟨hreach, { medium := .file f, watched := false }, f, by simp, rfl, hf⟩
  willing s hs := by
    rw [List.getElem?_concat_length, Option.some.injEq] at hs
    rw [← hs]
  returns hr := by
    unfold World.Returns at hr ⊢
    rw [hv]
    exact hr
  calm hc := hv.trans hc

theorem ends_openFile (hq : w.disk.enter cfg.path = .ok q) (hs : w.disk.Sound)
    (hv : Vacant q w.disk) :
    Ends (openFile cfg.path) w (OpenedNew q cfg w) fun stop _ => ∃ e, stop = .error e := by
  have hmake := makeFolders_of_enter "create metadata folder" (Disk.enter_moves hq)
  cases ho : w.disk.openOrCreate (Path.join cfg.path indexFileName) with
  | error cause =>
    refine ends_of_eq_error (t := w) ?_ ⟨.database s!"I/O error: {cause.message}", rfl⟩
    simp only [openFile, bind, EStateM.bind, hmake, get, getThe, MonadStateOf.get, EStateM.get, ho]
    rfl
  | ok fd =>
    obtain ⟨f, d⟩ := fd
    have hd : w.disk.Changes { places := [q ++ [indexFileName]] } d :=
      Disk.changes_openOrCreate hq plain_index ho (by simp)
    have hf := Disk.names_openOrCreate hq plain_index ho
    have hcontent : (∃ x, d.content f = .bytes x ∧ x.size = 0) ∨
        ∃ t damage, d.content f = .tables t damage ∧ t.Encodes {} := by
      rcases Disk.content_openOrCreate hq plain_index ho with ⟨hfound, hsame⟩ | ⟨-, hnew⟩
      · exact hsame ▸ hv f hfound
      · exact .inl ⟨[], hnew, rfl⟩
    have hsd := hd.sound hs
    have hreach := (Disk.openOrCreate_eq_ok hq plain_index ho).1
    cases hfree : w.stores.any (holds f) with
    | true =>
      refine ends_of_eq_error (t := w)
        ?_ ⟨.database "Database already open. Cannot acquire lock.", rfl⟩
      simp only [openFile, bind, EStateM.bind, hmake, get, getThe, MonadStateOf.get, EStateM.get,
        ho, hfree, if_true]
      rfl
    | false =>
      rcases hcontent with ⟨x, hx, hsize⟩ | ⟨t, damage, ht, he⟩
      · have hset : d.Changes { files := [f] } (d.setContent f (.tables {} [])) :=
          Disk.Changes.setContent (by simp) (.inl (by simp))
        have ht : (d.setContent f (.tables {} [])).content f = .tables {} [] := by
          rw [Disk.content_setContent, if_pos ⟨rfl, hsd.there _ f hf⟩]
        refine ends_of_eq_ok (a := w.stores.length) ?_ (openedNew
          { w with disk := d.setContent f (.tables {} []) } (hset.enter (hd.enter hq))
          (hset.sound hsd) hreach hf ht rfl encodes_empty hfree rfl)
        simp only [openFile, bind, EStateM.bind, hmake, get, getThe, MonadStateOf.get,
          EStateM.get, ho, hfree, Bool.false_eq_true, if_false, hx, hsize, if_true, set,
          MonadStateOf.set, EStateM.set, add]
      · cases hz : damage.isZero with
        | true =>
          refine ends_of_eq_ok (a := w.stores.length) ?_ (openedNew { w with disk := d }
            (hd.enter hq) hsd hreach hf ht hz he hfree rfl)
          simp only [openFile, bind, EStateM.bind, hmake, get, getThe, MonadStateOf.get,
            EStateM.get, ho, hfree, Bool.false_eq_true, if_false, ht, hz, if_true, set,
            MonadStateOf.set, EStateM.set, add]
        | false =>
          refine ends_of_eq_error (t := w) ?_ ⟨.database "Invalid data", rfl⟩
          simp only [openFile, bind, EStateM.bind, hmake, get, getThe, MonadStateOf.get,
            EStateM.get, ho, hfree, Bool.false_eq_true, if_false, ht, hz]
          rfl

theorem ends_openFile_new (hs : w.disk.Sound)
    (hv : ∀ q, (w.disk.createFolders cfg.path.moves).2.enter cfg.path = .ok q →
      Vacant q (w.disk.createFolders cfg.path.moves).2) :
    Ends (openFile cfg.path) w (fun id w' => ∃ q, OpenedNew q cfg w id w')
      fun stop _ => ∃ e, stop = .error e := by
  cases hm : w.disk.createFolders cfg.path.moves with
  | mk failure d =>
    rw [hm] at hv
    cases failure with
    | some cause =>
      refine ends_of_eq_error (e := .error (.io "create metadata folder" cause))
        (t := { w with disk := d }) ?_ ⟨_, rfl⟩
      simp only [openFile, bind, EStateM.bind, Op.makeFolders, hm]
    | none =>
      obtain ⟨⟨p, hp⟩, hd⟩ := Disk.createFolders_eq_none hm
      have hmake : Op.makeFolders "create metadata folder" cfg.path.moves w =
          .ok () { w with disk := d } := by
        simp only [Op.makeFolders, hm]
      cases ho : d.openOrCreate (Path.join cfg.path indexFileName) with
      | error cause =>
        refine ends_of_eq_error (t := { w with disk := d })
          ?_ ⟨.database s!"I/O error: {cause.message}", rfl⟩
        simp only [openFile, bind, EStateM.bind, hmake, get, getThe, MonadStateOf.get, EStateM.get,
          ho]
        rfl
      | ok fd =>
        obtain ⟨q, hq⟩ := Disk.enter_of_openOrCreate plain_index ho
        have heq : openFile cfg.path w = openFile cfg.path { w with disk := d } := by
          simp only [openFile, bind, EStateM.bind, hmake,
            makeFolders_of_enter (w := { w with disk := d }) _ hp]
        have hends := ends_openFile (w := { w with disk := d }) hq (hd.sound hs) (hv q hq)
        cases hx : openFile cfg.path w with
        | error stop w' => exact ends_of_eq_error hx (hends.error (heq ▸ hx))
        | ok id w' =>
          have hopened := hends.ok (heq ▸ hx)
          exact ends_of_eq_ok hx ⟨q, { hopened with }⟩

end Store

namespace Writer

/-- The first opening of a folder starts an empty log. -/
theorem ends_openFolder_new (hs : w.disk.Sound) (hr : w.Returns)
    (hv : ∀ q, (w.disk.createFolders cfg.path).2.enter cfg.path = .ok q →
      Store.Vacant q (w.disk.createFolders cfg.path).2) :
    Ends (openFolder cfg) w
      (fun writer w' => ∃ q salt, writer.config = cfg ∧ writer.stats = {} ∧
        writer.buffer.capacity = cfg.capacity ∧
        Carries q { live := ⟨[], salt⟩ } { buffer := some writer.buffer.state } writer w' ∧
        Store.Alone writer.store w'.stores ∧ Store.Linked q cfg writer.store w')
      fun stop _ => ∃ e, stop = .error e := by
  cases hm : w.disk.createFolders cfg.path with
  | mk failure d =>
    cases failure with
    | some cause =>
      refine ends_of_eq_error (e := .error (.io "create cellar folder" cause))
        (t := { w with disk := d }) ?_ ⟨_, rfl⟩
      simp only [openFolder, bind, EStateM.bind, Op.makeFolders, hm]
    | none =>
      rw [hm] at hv
      obtain ⟨⟨q, hq⟩, hd⟩ := Disk.createFolders_eq_none hm
      have hmake : Op.makeFolders "create cellar folder" cfg.path w = .ok () { w with disk := d } := by
        simp only [Op.makeFolders, hm]
      refine Ends.bind_of_eq hmake ?_
      refine (Store.ends_openFile (w := { w with disk := d }) hq (hd.sound hs) (hv q hq)).bind ?_
        fun _ _ hE => hE
      rintro id w₁ ho
      refine (ends_resume_empty ho.sound ho.home ho.keeps (ho.returns hr)).mono ?_ fun _ _ hE => hE
      rintro writer w' ⟨salt, hcfg, hst, hstats, hcap, hcar, hmoves⟩
      exact ⟨q, salt, hcfg, hstats, hcap, hcar, hst ▸ ho.alone.touched hmoves.stores,
        hst ▸ ho.linked.moves hmoves⟩

theorem openFolder_eq {t : StoredTables} {damage : Sparse} (hq : w.disk.enter cfg.path = .ok q)
    (hr : cfg.Reaches indexFileName)
    (hf : w.disk.names.get? (q ++ [indexFileName]) = some (.file f))
    (ht : w.disk.content f = .tables t damage) (hz : damage.isZero = true)
    (hfree : w.stores.any (Store.holds f) = false) :
    openFolder cfg w = resume cfg w.stores.length
      { w with stores := w.stores ++ [{ medium := .file f, watched := false }] } := by
  simp only [openFolder, bind, EStateM.bind, Store.makeFolders_of_enter _ hq,
    Store.openFile_eq hq hr hf ht hz hfree]

end Writer

end RecordLog
