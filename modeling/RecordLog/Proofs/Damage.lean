import Mathlib
import RecordLog.Proofs.CallByCall
import RecordLog.Proofs.Framing
import RecordLog.Proofs.Passages
import RecordLog.Proofs.Recovery

/-!
# Scans over damaged files

The files of a log may come to hold anything, or be gone, while its index stays as it was. A scan
from the start of the log still yields records that lie one behind the other. It leaves a chunk for
the next segment only when it has gone through all the content that the index promises, and
otherwise ends with an error. So it stops early without one only in the live segment.
-/

namespace RecordLog

open Record

/-- What a cipher cannot do otherwise that changes live bytes in place. -/
def Cipher.KeepsLength (c : Cipher) : Prop :=
  ∀ id offset x y, c.decodeAt id offset x = .ok y → y.length = x.length

theorem Content.length_range_le (offset count : Nat) (x : Content) :
    (x.range offset count).length ≤ count := by
  cases x with
  | bytes b =>
    rw [range, Sparse.range_eq]
    exact List.length_take_le _ _
  | tables t damage => exact Nat.zero_le _
  | full => exact Nat.le_of_eq List.length_replicate

def World.withDisk (w : World) (d : Disk) : World := { w with disk := d }

theorem Store.Offers.withDisk {id : StoreId} {c : Catalog} {w : World} (h : Offers id c w)
    {d : Disk} (hd : (w.withDisk d).tables id = w.tables id) (k : Circumstances) :
    Offers id c ((w.under id k).withDisk d) := by
  obtain ⟨s, hs, hc, hp, hr⟩ := h
  refine ⟨{ s with failCommits := k.refuses }, ?_, hc, hp, ?_⟩
  · change (w.under id k).stores[id]? = _
    rw [World.getElem?_stores_under, hs]
    rfl
  · simp only [World.tables, World.withDisk, hs, Option.map_some, Option.some.injEq] at hd
    rw [← hd] at hr
    exact hr

/-- What a scan from the start reads of some chunks and of the live segment behind them. -/
inductive Reads (cfg : Config) (m : Watermark) (d : Disk) :
    List Chunk → List Record → Item → Prop where
  | whole {chunk : Chunk} {chunks : List Chunk} {content : Bytes} {rs rs' : List Record}
      {last : Item} (hd : chunk.Decoded cfg d content) (hsize : content.length = chunk.size)
      (hruns : Runs chunk.start chunk.start content rs []) (hrest : Reads cfg m d chunks rs' last) :
      Reads cfg m d (chunk :: chunks) (rs ++ rs') last
  | broken {chunk : Chunk} {chunks : List Chunk} {content left : Bytes} {rs : List Record}
      {e : Error} (hsize : content.length ≤ chunk.size)
      (hruns : Runs chunk.start chunk.start content rs left) :
      Reads cfg m d (chunk :: chunks) rs (.error e)
  | live {plain left : Bytes} {rs : List Record} {last : Item} (hsize : plain.length ≤ m.pos)
      (hruns : Runs m.start m.start plain rs left) (hlast : last = .done ∨ ∃ e, last = .error e) :
      Reads cfg m d [] rs last

namespace Reads

variable {cfg : Config} {m : Watermark} {d : Disk} {chunks : List Chunk} {rs : List Record}
  {last : Item} {start : Nat} {es : List (Nat × Chunk)}

theorem ended (h : Reads cfg m d chunks rs last) : last = .done ∨ ∃ e, last = .error e := by
  induction h with
  | whole _ _ _ _ ih => exact ih
  | broken _ _ => exact .inr ⟨_, rfl⟩
  | live _ _ hlast => exact hlast

theorem tiles (ht : Chunk.Tile start m.start es) (h : Reads cfg m d (es.map Prod.snd) rs last) :
    ∃ stop, Tiles start rs stop ∧ stop ≤ m.stop ∧ (last = .done → m.start ≤ stop) := by
  induction es generalizing start rs with
  | nil =>
    obtain rfl : start = m.start := ht
    cases h with
    | live hsize hruns _ =>
      obtain ⟨stop, htiles, hstop⟩ := hruns.tiles
      refine ⟨stop, htiles, ?_, fun _ => htiles.start_le⟩
      unfold Watermark.stop
      omega
  | cons e es ih =>
    obtain ⟨-, hstart, -, hrest⟩ := ht
    have hend : e.2.stop = e.2.start + e.2.size := rfl
    cases h with
    | whole _ hsize hruns hreads =>
      obtain ⟨mid, htiles, hmid⟩ := hruns.tiles
      have hmid : mid = e.2.stop := by
        rw [hend, ← hsize, ← hmid, List.length_nil, Nat.add_zero]
      obtain ⟨stop, htiles', hstop, hdone⟩ := ih hrest hreads
      rw [hstart, hmid] at htiles
      exact ⟨stop, htiles.append htiles', hstop, hdone⟩
    | broken hsize hruns =>
      obtain ⟨stop, htiles, hstop⟩ := hruns.tiles
      have hle := hrest.start_le
      rw [hstart] at htiles
      refine ⟨stop, htiles, ?_, fun hdone => by cases hdone⟩
      unfold Watermark.stop
      omega

theorem parted (h : Reads cfg m d chunks rs last) :
    ∃ whole rest parts more, chunks = whole ++ rest ∧ rs = parts.flatten ++ more ∧
      List.Forall₂ (fun chunk rs => ∃ content, Chunk.Decoded cfg chunk d content ∧
        content.length = chunk.size ∧ Runs chunk.start chunk.start content rs []) whole parts ∧
      (∀ r ∈ more, r.segment = (rest.head?.map Chunk.start).getD m.start) ∧
      (last = .done → rest = []) := by
  induction h with
  | @whole chunk chunks content rs rs' last hd hsize hruns _ ih =>
    obtain ⟨whole, rest, parts, more, rfl, rfl, hparts, hmore, hdone⟩ := ih
    refine ⟨chunk :: whole, rest, rs :: parts, more, rfl, ?_, ?_, hmore, hdone⟩
    · rw [List.flatten_cons, List.append_assoc]
    · exact .cons ⟨content, hd, hsize, hruns⟩ hparts
  | @broken chunk chunks content left rs e hsize hruns =>
    exact ⟨[], chunk :: chunks, [], rs, rfl, rfl, .nil, fun r hr => hruns.segment_of_mem hr,
      fun hdone => by cases hdone⟩
  | @live plain left rs last hsize hruns _ =>
    exact ⟨[], [], [], rs, rfl, rfl, .nil, fun r hr => hruns.segment_of_mem hr, fun _ => rfl⟩

end Reads

namespace Reader

variable {r : Reader} {c : Catalog} {chunk : Chunk} {m : Watermark} {w w' : World} {stop : Nat}

/-- A chunk is opened with all the content that the index promises, or not at all. -/
theorem ends_openChunk_any (hr : w.Returns) (hle : chunk.stop ≤ stop) :
    Ends (r.openChunk chunk stop) w
      (fun cur w' => World.Idle w w' ∧ ∃ content, chunk.Decoded r.config w.disk content ∧
        content.length = chunk.size ∧ cur = {
          name := chunk.file
          segment := chunk.start
          pos := chunk.start
          rest := content
          lenient := false })
      fun stop' w' => World.Idle w w' ∧ ∃ e, stop' = .error e := by
  refine (chunk.ends_load_any w).bind ?_ fun _ _ h => ⟨h.1, h.2 hr⟩
  rintro content w₁ ⟨hi, hsize, hd⟩
  have hend : chunk.stop = chunk.start + chunk.size := rfl
  have hlimit : min stop chunk.stop - chunk.start = chunk.size := by
    rw [Nat.min_eq_right hle, hend, Nat.add_sub_cancel_left]
  have hdiff : Op.difference (min stop chunk.stop) chunk.start w₁ = .ok chunk.size w₁ := by
    rw [Op.difference_eq, hlimit]
    rw [Nat.min_eq_right hle]
    exact Nat.le_add_right _ _
  have hfront : Op.frontOf content chunk.size w₁ = .ok content w₁ := by
    rw [Op.frontOf_eq (Nat.le_of_eq hsize.symm), ← hsize, List.take_length]
  refine Ends.bind_of_eq hdiff (Ends.bind_of_eq hfront (ends_pure ⟨hi, content, hd, hsize, ?_⟩))
  rw [decide_eq_false (Nat.lt_irrefl _)]

theorem ends_openLive_any (hr : w.Returns) (hk : r.config.cipher.KeepsLength) (m : Watermark) :
    Ends (r.openLive m 0) w
      (fun cur w' => World.Idle w w' ∧ ∃ plain : Bytes, plain.length ≤ m.pos ∧ cur = {
        name := bufferFileName m.start
        segment := m.start
        pos := m.start
        rest := plain
        lenient := true })
      fun stop w' => World.Idle w w' ∧ ∃ e, stop = .error e := by
  have hoffset : min (0 - m.start) m.pos = 0 := by rw [Nat.zero_sub, Nat.zero_min]
  have hdiff : Op.difference m.pos 0 w = .ok m.pos w := Op.difference_eq (Nat.zero_le _) w
  refine (Op.ends_lookAtDisk _ _ w).bind ?_ ?_
  swap
  · rintro stop w' ⟨rfl, cause, -, rfl⟩
    exact ⟨.refl _, _, rfl⟩
  rintro entry w' ⟨rfl, -⟩
  rw [hoffset]
  refine Ends.bind_of_eq hdiff (Ends.bind (P := fun bytes w₁ => w₁ = w' ∧ bytes.length ≤ m.pos)
    (F := fun stop w₁ => World.Idle w' w₁ ∧ ∃ e, stop = .error e) ?_ ?_ fun _ _ h => h)
  · cases entry with
    | folder =>
      dsimp only
      split
      · exact ends_pure ⟨rfl, Nat.zero_le _⟩
      · exact ends_throw ⟨.refl _, _, rfl⟩
    | file f => exact ends_of_eq_ok rfl ⟨rfl, Content.length_range_le _ _ _⟩
  · rintro bytes w₁ ⟨rfl, hlen⟩
    refine (Op.ends_decodeAt _ _ _ _ w₁).bind ?_ fun _ _ h => ⟨h.1, h.2 hr⟩
    rintro plain w₂ ⟨hi, hplain⟩
    exact ends_pure ⟨hi, plain, (hk _ _ _ _ hplain).trans_le hlen, rfl⟩

theorem ends_openSource_live_any (ho : Store.Offers r.store c w) (hr : w.Returns)
    (hk : r.config.cipher.KeepsLength) (hnone : ∀ chunk ∈ c.chunks.values, chunk.start ≠ m.start) :
    Ends (r.openSource 0 stop (.live m)) w
      (fun cur w' => World.Idle w w' ∧ ∃ plain : Bytes, plain.length ≤ m.pos ∧ cur = {
        name := bufferFileName m.start
        segment := m.start
        pos := m.start
        rest := plain
        lenient := true })
      fun stop w' => World.Idle w w' ∧ ∃ e, stop = .error e := by
  refine Ends.catch_stop (ends_openLive_any hr hk m) ?_
  rintro _ w₁ ⟨h₁, e, rfl⟩
  dsimp only
  split
  · refine (ends_chunks (ho.idle h₁)).bind ?_
      fun _ _ h => ⟨h₁.trans h.1, h.2.1 (h₁.returns hr)⟩
    rintro cs w₂ ⟨rfl, h₂⟩
    have hfind : c.chunks.values.find? (fun chunk => decide (chunk.start = m.start)) = none := by
      rw [List.find?_eq_none]
      intro chunk hchunk
      rw [decide_eq_true_eq]
      exact hnone chunk hchunk
    rw [hfind]
    exact ends_throw ⟨h₁.trans h₂, e, rfl⟩
  · exact ends_throw ⟨h₁, e, rfl⟩

theorem reads_collectAmid (hk : r.config.cipher.KeepsLength)
    (hnone : ∀ chunk ∈ c.chunks.values, chunk.start ≠ m.start) {tail : List Source}
    (ht : tail = [] ∨ tail = [.live m]) (writer : Writer) {chunks : List Chunk}
    (hle : ∀ chunk ∈ chunks, chunk.stop ≤ stop) (ho : Store.Offers r.store c w) (hr : w.Returns) :
    Reads r.config m w.disk chunks
      (r.collectAmid 0 stop (fun _ => {}) (chunks.map .chunk ++ tail) (writer, w)).1
      (r.collectAmid 0 stop (fun _ => {}) (chunks.map .chunk ++ tail) (writer, w)).2.1 := by
  induction chunks generalizing w with
  | nil =>
    rcases ht with rfl | rfl
    · exact .live (Nat.zero_le _) (.nil _ []) (.inl rfl)
    · have hopen : Ends (r.openSource 0 stop (.live m)) w _ _ :=
        ends_openSource_live_any ho hr hk hnone
      rw [List.map_nil, List.nil_append, collectAmid, openAmid_idle, Writing.onWorld]
      cases hx : r.openSource 0 stop (.live m) w with
      | error stop' w' =>
        obtain ⟨-, e, rfl⟩ := hopen.error hx
        exact .live (Nat.zero_le _) (.nil _ []) (.inr ⟨e, rfl⟩)
      | ok cur w' =>
        obtain ⟨-, plain, hlen, rfl⟩ := hopen.ok hx
        obtain ⟨left, hruns, -⟩ := Cursor.drain_runs (c := {
          name := bufferFileName m.start, segment := m.start, pos := m.start, rest := plain,
          lenient := true }) rfl
        dsimp only
        split <;> rename_i hdrain <;> rw [hdrain] at hruns
        · exact .live hlen hruns (.inr ⟨_, rfl⟩)
        · rw [collectAmid, List.append_nil]
          exact .live hlen hruns (.inl rfl)
  | cons chunk chunks ih =>
    have hopen := ends_openChunk_any (r := r) hr (hle chunk List.mem_cons_self)
    rw [List.map_cons, List.cons_append, collectAmid, openAmid_idle, Writing.onWorld]
    cases hx : r.openSource 0 stop (.chunk chunk) w with
    | error stop' w' =>
      obtain ⟨-, e, rfl⟩ := hopen.error hx
      exact .broken (Nat.zero_le _) (.nil _ [])
    | ok cur w' =>
      obtain ⟨hi, content, hd, hsize, rfl⟩ := hopen.ok hx
      obtain ⟨left, hruns, hleft⟩ := Cursor.drain_runs (c := {
        name := chunk.file, segment := chunk.start, pos := chunk.start, rest := content,
        lenient := false }) rfl
      have hrest := ih (fun chunk' hchunk' => hle chunk' (List.mem_cons_of_mem _ hchunk'))
        (ho.idle hi) (hi.returns hr)
      rw [hi.disk] at hrest
      dsimp only
      split <;> rename_i hdrain <;> rw [hdrain] at hruns hleft
      · exact .broken (Nat.le_of_eq hsize) hruns
      · obtain rfl := hleft rfl rfl
        exact .whole hd hsize hruns hrest

end Reader

namespace Scan

variable {s s' : Scan} {w w' : World} {item : Item}

theorem next_of_advance (hf : s.failed = false) {sources : List Source}
    (h : s.advance sources w = (item, s', w')) (hi : item = .done ∨ ∃ e, item = .error e)
    (w'' : World) : s'.next w'' = (.done, s', w'') := by
  induction sources generalizing s w with
  | nil =>
    cases h
    have hover : Over { s with plan := { s.plan with sources := [] }, cursor := none } :=
      ⟨hf, rfl, rfl⟩
    exact next_of_over hover w''
  | cons source rest ih =>
    rw [advance] at h
    split at h
    · cases h
      exact next_of_failed rfl
    · cases h
      rcases hi with hi | ⟨e, hi⟩ <;> cases hi
    · split at h
      · cases h
        rcases hi with hi | ⟨e, hi⟩ <;> cases hi
      · cases h
        exact next_of_failed rfl
      · exact ih (s := { s with plan := { s.plan with sources := rest }, cursor := none }) hf h

theorem next_of_next (h : s.next w = (item, s', w')) (hi : item = .done ∨ ∃ e, item = .error e)
    (w'' : World) : s'.next w'' = (.done, s', w'') := by
  by_cases hf : s.failed = true
  · rw [next_of_failed hf] at h
    cases h
    exact next_of_failed hf
  · have hf : s.failed = false := Bool.eq_false_iff.2 hf
    rw [next, hf] at h
    simp only [Bool.false_eq_true, if_false] at h
    split at h
    · exact next_of_advance hf h hi w''
    · split at h
      · cases h
        rcases hi with hi | ⟨e, hi⟩ <;> cases hi
      · cases h
        exact next_of_failed rfl
      · exact next_of_advance hf h hi w''

theorem next_of_collect (s : Scan) (w : World)
    (hi : (s.collect w).2.1 = .done ∨ ∃ e, (s.collect w).2.1 = .error e) (w'' : World) :
    (s.collect w).2.2.1.next w'' = (.done, (s.collect w).2.2.1, w'') := by
  fun_induction collect s w with
  | case1 s w r s' w' hn _ records rest heq ih =>
    rw [heq] at ih
    exact ih hi
  | case2 s w hn =>
    exact next_of_next rfl hi w''

end Scan

/-- What a scan from the start of a log shows, whatever the files hold. -/
structure Gapless (cfg : Config) (chunks : List Chunk) (m : Watermark) (d : Disk)
    (records : List Record) (last : Item) : Prop where
  ended : last = .done ∨ ∃ e, last = .error e
  tiles : ∃ stop, Tiles 0 records stop ∧ stop ≤ m.stop ∧ (last = .done → m.start ≤ stop)
  parted : ∃ whole rest parts more, chunks = whole ++ rest ∧ records = parts.flatten ++ more ∧
    List.Forall₂ (fun chunk rs => ∃ content, Chunk.Decoded cfg chunk d content ∧
      content.length = chunk.size ∧ Runs chunk.start chunk.start content rs []) whole parts ∧
    (∀ r ∈ more, r.segment = (rest.head?.map Chunk.start).getD m.start) ∧
    (last = .done → rest = [])

theorem Reads.gapless {cfg : Config} {m : Watermark} {d : Disk} {c : Catalog} {rs : List Record}
    {last : Item} (ht : Chunk.Tile 0 m.start c.chunks.entries)
    (h : Reads cfg m d c.chunks.values rs last) : Gapless cfg c.chunks.values m d rs last :=
  ⟨h.ended, h.tiles ht, h.parted⟩

variable {cfg : Config} {c : Catalog} {id : StoreId} {writer : Writer} {w : World} {g : Ledger}
  {m : Watermark} {r : Reader}

theorem Chunk.Tile.bounds_of_mem_values {stop : Nat} (ht : Chunk.Tile 0 stop c.chunks.entries)
    {chunk : Chunk} (hchunk : chunk ∈ c.chunks.values) :
    chunk.start < chunk.stop ∧ chunk.stop ≤ stop := by
  obtain ⟨e, he, rfl⟩ := List.mem_map.1 hchunk
  obtain ⟨hstart, hlt, hle⟩ := ht.bounds_of_mem he
  exact ⟨hstart ▸ hlt, hle⟩

theorem Plan.build_of_tile (ht : Chunk.Tile 0 m.start c.chunks.entries) :
    ∃ tail, Plan.build m c.chunks.values 0 = ⟨0, m.stop, c.chunks.values.map .chunk ++ tail⟩ ∧
      (tail = [] ∨ tail = [.live m]) := by
  have hall : c.chunks.values.filter (Plan.wants 0 m.stop) = c.chunks.values := by
    refine List.filter_eq_self.2 fun chunk hchunk => ?_
    obtain ⟨hlt, hle⟩ := ht.bounds_of_mem_values hchunk
    have hend : m.stop = m.start + m.pos := rfl
    simp only [Plan.wants, Bool.and_eq_true, decide_eq_true_eq]
    omega
  have hsources : (Plan.build m c.chunks.values 0).sources = _ :=
    Plan.sources_of_before fun chunk hchunk => by
      obtain ⟨hlt, hle⟩ := ht.bounds_of_mem_values hchunk
      exact hlt.trans_le hle
  rw [hall] at hsources
  refine ⟨_, congrArg (Plan.mk 0 m.stop) hsources, ?_⟩
  split
  · exact .inr rfl
  · exact .inl rfl

theorem Reader.ends_scan_gapless (ho : Store.Offers r.store c w) (hr : w.Returns)
    (hk : r.config.cipher.KeepsLength) (hm : w.marks[r.mark]? = some m)
    (ht : Chunk.Tile 0 m.start c.chunks.entries) (writer : Writer) :
    Ends (r.scan 0) w
      (fun scan w' => scan.stop = m.stop ∧
        Gapless r.config c.chunks.values m w.disk (scan.collect w').1 (scan.collect w').2.1 ∧
        ∀ w'', (scan.collect w').2.2.1.next w'' = (.done, (scan.collect w').2.2.1, w''))
      fun stop _ => (∃ e, stop = .error e) ∧ (w.Calm → ¬ Store.Listable r.store c w) := by
  have hmark := Reader.watermark_eq hm
  have hchunks := Reader.ends_chunks ho
  cases hx : r.chunks w with
  | error stop w' =>
    obtain ⟨-, hfailed, hcalm⟩ := hchunks.error hx
    refine ends_of_eq_error (e := stop) (t := w') ?_ ⟨hfailed hr, hcalm⟩
    simp only [scan, plan, bind, EStateM.bind, hmark, hx]
  | ok cs w' =>
    obtain ⟨rfl, hi⟩ := hchunks.ok hx
    refine ends_of_eq_ok (Reader.scan_eq hmark hx 0) ⟨rfl, ?_⟩
    obtain ⟨tail, hplan, htail⟩ := Plan.build_of_tile ht
    have hnone (chunk : Chunk) (hchunk : chunk ∈ c.chunks.values) : chunk.start ≠ m.start := by
      obtain ⟨hlt, hle⟩ := ht.bounds_of_mem_values hchunk
      exact Nat.ne_of_lt (hlt.trans_le hle)
    have hle (chunk : Chunk) (hchunk : chunk ∈ c.chunks.values) : chunk.stop ≤ m.stop :=
      (ht.bounds_of_mem_values hchunk).2.trans (Nat.le_add_right _ _)
    have hreads := Reader.reads_collectAmid hk hnone htail writer hle (ho.idle hi) (hi.returns hr)
    rw [Reader.collectAmid_idle, hi.disk] at hreads
    rw [hplan]
    have hgapless := hreads.gapless ht
    exact ⟨hgapless, Scan.next_of_collect _ _ hgapless.ended⟩

/-- Whatever becomes of the files of a log, a scan from its start shows no gap as long as the index
is what it was. -/
theorem Life.gapless_of_damage (h : Life cfg (some writer) id w g) (hstore : r.store = id)
    (hmark : r.mark = writer.mark) (hk : r.config.cipher.KeepsLength) {d : Disk}
    (hd : (w.withDisk d).tables id = w.tables id) (k : Circumstances) :
    ∃ c, Moment.Indexes ⟨some writer, id, w, g⟩ c ∧
      Ends (r.scan 0) ((w.under id k).withDisk d)
        (fun scan w' => scan.stop = writer.buffer.stop ∧
          Gapless r.config c.chunks.values writer.buffer.watermark d (scan.collect w').1
            (scan.collect w').2.1 ∧
          ∀ w'', (scan.collect w').2.2.1.next w'' = (.done, (scan.collect w').2.2.1, w''))
        fun stop _ => (∃ e, stop = .error e) ∧
          (k.faults = {} → ¬ Store.Listable id c ((w.under id k).withDisk d)) := by
  obtain ⟨q, c, hbooks⟩ := Life.books (n := ⟨some writer, id, w, g⟩) h
  obtain ⟨-, hid, hw⟩ := hbooks.writer writer rfl
  have hid : writer.store = id := hid
  have hoffers : Store.Offers id c w := hid ▸ hw.index.offers
  have htile : Chunk.Tile 0 writer.buffer.watermark.start c.chunks.entries := hw.describes.tile
  have hm : ((w.under id k).withDisk d).marks[r.mark]? = some writer.buffer.watermark :=
    hmark ▸ hw.mark
  subst hstore
  exact ⟨c, hbooks.indexes,
    Reader.ends_scan_gapless (hoffers.withDisk hd k) k.returns hk hm htile writer⟩

def Disk.overwritten (d : Disk) (b : Bytes) : Disk :=
  { d with files := d.files.map fun _ => .bytes (Sparse.ofBytes b) }

/-- The only chunk is cut off within its second record, and the live segment behind it does not
show. -/
theorem gapless_of_damage_torn :
    ∃ (writer : Writer) (w : World) (g : Ledger) (c : Catalog) (r : Reader) (d : Disk)
      (last : Item), Life .plain (some writer) 0 w g ∧
      Moment.Indexes ⟨some writer, 0, w, g⟩ c ∧
      d = w.disk.overwritten [2, 9, 2] ∧ (w.withDisk d).tables 0 = w.tables 0 ∧
      r.readFrom 0 ((w.under 0 {}).withDisk d) = ([⟨[9], 0, 0, 2⟩], last) ∧
      last = .error (.corrupt "000000000000.chunk" "truncated payload at position 2") ∧
      Gapless .plain c.chunks.values writer.buffer.watermark d [⟨[9], 0, 0, 2⟩] last := by
  have hlife := ((Life.found World.sound_blank (World.Calm.returns rfl) (by decide) Founding.blank
    rfl).act ⟨.append [1, 2] (by decide), {}⟩).act ⟨.append [5] (by decide), {}⟩
  obtain ⟨writer, w, g, d, hlife, rfl, htables, hrecords, hlast, hstarted⟩ :
      ∃ writer w g d, Life .plain (some writer) 0 w g ∧ d = w.disk.overwritten [2, 9, 2] ∧
        (w.withDisk d).tables 0 = w.tables 0 ∧
        let r : Reader := ⟨.plain, 0, writer.mark⟩
        let shown := r.readAmid 0 [] (fun _ => {}) (writer, (w.under 0 {}).withDisk d)
        shown.records = [⟨[9], 0, 0, 2⟩] ∧
          shown.last = .error (.corrupt "000000000000.chunk" "truncated payload at position 2") ∧
          (r.scan 0).passes (fun _ _ => true) ((w.under 0 {}).withDisk d) = true :=
    ⟨_, _, _, _, hlife, rfl, by decide +kernel, by decide +kernel, by decide +kernel,
      by decide +kernel⟩
  have hread := Reader.readFrom_of_readAmid hrecords hlast
  obtain ⟨scan, w', hscan, -⟩ := Op.exists_of_passes hstarted
  obtain ⟨c, hindexes, hends⟩ := hlife.gapless_of_damage (r := ⟨.plain, 0, writer.mark⟩) rfl rfl
    (fun _ _ x y h => by cases h; rfl) htables {}
  obtain ⟨-, hgapless, -⟩ := hends.ok hscan
  have hshown := hread
  rw [Reader.readFrom, hscan] at hshown
  obtain ⟨hrecords, hlast⟩ := Prod.mk.inj hshown
  rw [hrecords, hlast] at hgapless
  exact ⟨writer, w, g, c, _, _, _, hlife, hindexes, rfl, htables, hread, rfl, hgapless⟩

end RecordLog
