import Pintos.Filesys.Cache

/-!
# What the buffer cache does

One specification for each operation of the cache, by the contents of the
sectors: `buffer_cache_check` and the flush change no content, and
`buffer_cache_write` changes the bytes it is given and no others. None of them
stops unless it is given a sector past the end of the disk, or reads ahead past
it. From these, `reachable_wf` carries the invariant of the cache along every
run.
-/

namespace Pintos

open Library Library.Prog Library.Clock

namespace Buffers

variable {st st' : Buffers}

/-! ### Eviction -/

/-- The list after the clock has stopped. -/
def spun (st : Buffers) : Buffers :=
  { st with list := spin BufferCacheEntry.accessed (fun b => { b with accessed := false }) st.list.length st.list }

theorem mem_spun {b : BufferCacheEntry} (hb : b ∈ st.spun.list) :
    ∃ c ∈ st.list, b.addr = c.addr ∧ b.secNo = c.secNo ∧ b.buffer = c.buffer ∧ b.dirty = c.dirty := by
  obtain ⟨c, hc, rfl | rfl⟩ := mem_spin _ _ hb
  · exact ⟨_, hc, rfl, rfl, rfl, rfl⟩
  · exact ⟨c, hc, rfl, rfl, rfl, rfl⟩

theorem spun_addrs : (st.spun.list.map BufferCacheEntry.addr).Perm (st.list.map BufferCacheEntry.addr) :=
  spin_map_perm _ (fun b => { b with accessed := false }) _ (fun _ => rfl) st.list

theorem spun_secs : (st.spun.list.map BufferCacheEntry.secNo).Perm (st.list.map BufferCacheEntry.secNo) :=
  spin_map_perm _ (fun b => { b with accessed := false }) _ (fun _ => rfl) st.list

theorem Wf.spun (hw : st.Wf) : Keeps st st.spun := by
  have hwf : st.spun.Wf := by
    refine ⟨spun_secs.nodup_iff.2 hw.secs, spun_addrs.nodup_iff.2 hw.addrs, ?_, ?_, ?_, ?_⟩
    · intro b hb
      obtain ⟨c, hc, ha, -⟩ := mem_spun hb
      exact ha ▸ hw.lt_next c hc
    · exact (length_spin _ _ st.list).le.trans hw.length_le
    · intro b hb hd
      obtain ⟨c, hc, -, hs, hbuf, hdirty⟩ := mem_spun hb
      rw [hbuf, hs]
      exact hw.clean c hc (hdirty ▸ hd)
    · intro b hb
      obtain ⟨c, hc, -, hs, -⟩ := mem_spun hb
      exact hs ▸ hw.range c hc
  refine ⟨hwf, content_eq_of hwf ?_ ?_, rfl⟩
  · intro b hb
    obtain ⟨c, hc, -, hs, hbuf, -⟩ := mem_spun hb
    rw [hbuf, hs, content_of_mem hw hc]
  · intro s hs
    change st.disk.sectors s = st.content s
    refine (content_of_notMem fun c hc hcs => ?_).symm
    have hmem : s ∈ st.spun.list.map BufferCacheEntry.secNo :=
      spun_secs.mem_iff.2 (List.mem_map.2 ⟨c, hc, hcs⟩)
    obtain ⟨b, hb, hbs⟩ := List.mem_map.1 hmem
    exact hs b hb hbs

/-- Free the first entry, after it was written back if it was dirty. -/
theorem Wf.drop_head {v : BufferCacheEntry} {r : List BufferCacheEntry} (hw : st.Wf) (hl : st.list = v :: r) (d : Disk)
    (hd : d = if v.dirty then st.disk.store v.secNo v.buffer else st.disk) : Keeps st ⟨d, r, st.next⟩ := by
  have hcap : d.capacity = st.disk.capacity := by rw [hd]; split_ifs <;> rfl
  have hmem : ∀ b ∈ r, b ∈ st.list := fun b hb => by rw [hl]; exact List.mem_cons_of_mem _ hb
  have hv : v ∈ st.list := by rw [hl]; exact List.mem_cons_self
  have hsec := hw.secs
  have haddr := hw.addrs
  rw [hl, List.map_cons, List.nodup_cons] at hsec haddr
  have hother : ∀ s, s ≠ v.secNo → d.sectors s = st.disk.sectors s := by
    intro s hs
    rw [hd]
    split_ifs
    · exact Disk.sectors_store_of_ne _ _ hs
    · rfl
  have hself : d.sectors v.secNo = v.buffer := by
    rw [hd]
    split_ifs with hdirty
    · exact Disk.sectors_store_self _ _ _
    · exact (hw.clean v hv (by simpa using hdirty)).symm
  have hne : ∀ b ∈ r, b.secNo ≠ v.secNo := fun b hb h => hsec.1 (List.mem_map.2 ⟨b, hb, h⟩)
  have hwf : Wf ⟨d, r, st.next⟩ := by
    refine ⟨hsec.2, haddr.2, fun b hb => hw.lt_next b (hmem b hb), ?_, fun b hb hbd => ?_, fun b hb => ?_⟩
    · have := hw.length_le
      rw [hl] at this
      exact (Nat.le_succ _).trans this
    · change b.buffer = d.sectors b.secNo
      rw [hother _ (hne b hb)]
      exact hw.clean b (hmem b hb) hbd
    · change b.secNo < d.capacity
      rw [hcap]
      exact hw.range b (hmem b hb)
  refine ⟨hwf, content_eq_of hwf (fun b hb => (content_of_mem hw (hmem b hb)).symm) ?_, hcap⟩
  intro s hs
  change d.sectors s = st.content s
  by_cases hsv : s = v.secNo
  · rw [hsv, hself, content_of_mem hw hv]
  · rw [hother s hsv]
    refine (content_of_notMem fun b hb hbs => ?_).symm
    rw [hl] at hb
    rcases List.mem_cons.1 hb with rfl | hb
    · exact hsv hbs.symm
    · exact hs b hb hbs

end Buffers

open Buffers

theorem diskRead_spec {st : Buffers} {sec : ℕ} {E : Halt → Prop} (hE : ¬ sec < st.disk.capacity → E .sectorOutOfRange) :
    wp (diskRead sec) (fun b st' => b = st.disk.sectors sec ∧ st' = st ∧ sec < st.disk.capacity) E st := by
  rw [diskRead, wp_bind, wp_gets, wp_ite, wp_pure, wp_stop, Disk.inRange_iff]
  exact ⟨fun h => ⟨rfl, rfl, h⟩, hE⟩

theorem diskWrite_spec {st : Buffers} {sec : ℕ} {b : Block} {E : Halt → Prop} (h : sec < st.disk.capacity) :
    wp (diskWrite sec b) (fun _ st' => st' = { st with disk := st.disk.store sec b }) E st := by
  rw [diskWrite, wp_bind, wp_gets, wp_ite, wp_modify, wp_stop, Disk.inRange_iff]
  exact ⟨fun _ => rfl, fun hn => absurd h hn⟩

/-- What eviction does: it keeps every content, frees one entry, and not the one last brought
in. -/
structure Evicted (st st' : Buffers) : Prop where
  keeps : Keeps st st'
  length : st'.list.length + 1 = st.list.length
  next : st'.next = st.next
  mem : ∀ b ∈ st'.list, ∃ c ∈ st.list, b.addr = c.addr ∧ b.secNo = c.secNo
  last : ∀ l x, st.list = l ++ [x] → x.accessed = true → l ≠ [] → ∃ b ∈ st'.list, b.addr = x.addr ∧ b.secNo = x.secNo

/-- Dropping the clock's victim, written back or not, is an eviction. -/
theorem Evicted.of_spun {st : Buffers} (hw : st.Wf) {v : BufferCacheEntry} {r : List BufferCacheEntry}
    (hl : st.spun.list = v :: r) (d : Disk)
    (hd : d = if v.dirty then st.disk.store v.secNo v.buffer else st.disk) : Evicted st ⟨d, r, st.next⟩ := by
  have hspun := hw.spun
  have hlen : st.spun.list.length = st.list.length := length_spin _ _ st.list
  refine ⟨hspun.trans (hspun.wf.drop_head hl d hd), by rw [← hlen, hl]; rfl, rfl, ?_, ?_⟩
  · intro b hb
    obtain ⟨c, hc, ha, hs, -⟩ := mem_spun (by rw [hl]; exact List.mem_cons_of_mem _ hb)
    exact ⟨c, hc, ha, hs⟩
  · -- the clock passes over the last entry, so the victim is another one
    intro l x hlx hacc hlne
    have hspin : spin BufferCacheEntry.accessed (fun b => { b with accessed := false }) (l ++ [x]).length (l ++ [x]) =
        v :: r := by
      rw [← hlx]
      exact hl
    obtain ⟨z, hz, hvz⟩ := head_spin_of_last _ _ hacc hlne hspin
    have hzaddr : v.addr = z.addr := by rcases hvz with rfl | rfl <;> rfl
    have hx : x ∈ st.list := by rw [hlx]; simp
    have hxz : z.addr ≠ x.addr := by
      have haddr := hw.addrs
      rw [hlx, List.map_append, List.nodup_append] at haddr
      exact haddr.2.2 _ (List.mem_map.2 ⟨z, hz, rfl⟩) _ (by simp)
    have hmem : x.addr ∈ st.spun.list.map BufferCacheEntry.addr :=
      spun_addrs.mem_iff.2 (List.mem_map.2 ⟨x, hx, rfl⟩)
    obtain ⟨b, hb, hba⟩ := List.mem_map.1 hmem
    obtain ⟨c, hc, hca, hcs, -⟩ := mem_spun hb
    have hcx : c = x := hw.eq_of_addr hc hx (hca.symm.trans hba)
    refine ⟨b, ?_, hba, by rw [hcs, hcx]⟩
    rw [hl] at hb
    rcases List.mem_cons.1 hb with rfl | hb
    · exact absurd (hzaddr.symm.trans hba) hxz
    · exact hb

theorem evict_spec {st : Buffers} {E : Halt → Prop} (hw : st.Wf) (hne : st.list ≠ []) :
    wp evict (fun _ st' => Evicted st st') E st := by
  have hspun := hw.spun
  have hlen : st.spun.list.length = st.list.length := length_spin _ _ st.list
  obtain ⟨v, r, hl⟩ : ∃ v r, st.spun.list = v :: r := by
    cases hs : st.spun.list with
    | nil => rw [hs] at hlen; exact absurd (List.length_eq_zero_iff.1 hlen.symm) hne
    | cons v r => exact ⟨v, r, rfl⟩
  have hfilter : st.spun.list.filter (fun b => b.addr != v.addr) = r := by
    have haddr := hspun.wf.addrs
    rw [hl, List.map_cons, List.nodup_cons] at haddr
    simp only [hl, List.filter_cons, bne_self_eq_false, Bool.false_eq_true, if_false]
    refine List.filter_eq_self.2 fun b hb => ?_
    have : b.addr ≠ v.addr := fun h => haddr.1 (List.mem_map.2 ⟨b, hb, h⟩)
    simpa using this
  simp only [evict, selectBceForEvict, wp_bind, wp_modify, wp_gets, wp_orStop, wp_onlyIf]
  change (∀ w, st.spun.list.head? = some w → _) ∧ (st.spun.list.head? = none → _)
  rw [hl]
  refine ⟨?_, fun hnone => by cases hnone⟩
  rintro w hwv
  obtain rfl : v = w := by simpa using hwv
  refine ⟨fun hdirty => ?_, fun hclean => ?_⟩
  · refine wp_post (diskWrite_spec (hspun.wf.range v (by rw [hl]; exact List.mem_cons_self))) ?_
    rintro - st' rfl
    change Evicted st ⟨_, st.spun.list.filter _, _⟩
    rw [hfilter]
    exact .of_spun hw hl _ (by rw [if_pos hdirty])
  · change Evicted st ⟨_, st.spun.list.filter _, _⟩
    rw [hfilter]
    exact .of_spun hw hl _ (by rw [if_neg hclean])

/-! ### Fetching -/

/-- Change the entry at `a` without changing what it holds. -/
theorem Buffers.Wf.update_entry {st : Buffers} (hw : st.Wf) {a : ℕ} {f : BufferCacheEntry → BufferCacheEntry}
    (ha : ∀ b, (f b).addr = b.addr) (hs : ∀ b, (f b).secNo = b.secNo) (hb : ∀ b, (f b).buffer = b.buffer)
    (hd : ∀ b, (f b).dirty = b.dirty) :
    Keeps st { st with list := st.list.map fun b => if b.addr = a then f b else b } := by
  have hmem : ∀ b ∈ st.list.map (fun b => if b.addr = a then f b else b),
      ∃ c ∈ st.list, b.addr = c.addr ∧ b.secNo = c.secNo ∧ b.buffer = c.buffer ∧ b.dirty = c.dirty := by
    intro b hb'
    obtain ⟨c, hc, rfl⟩ := List.mem_map.1 hb'
    refine ⟨c, hc, ?_⟩
    split_ifs
    · exact ⟨ha c, hs c, hb c, hd c⟩
    · exact ⟨rfl, rfl, rfl, rfl⟩
  have hwf : Wf { st with list := st.list.map fun b => if b.addr = a then f b else b } := by
    refine ⟨?_, ?_, fun b hb' => ?_, ?_, fun b hb' hbd => ?_, fun b hb' => ?_⟩
    · rw [map_entry_eq _ hs]; exact hw.secs
    · rw [map_entry_eq _ ha]; exact hw.addrs
    · obtain ⟨c, hc, h1, -⟩ := hmem b hb'
      exact h1 ▸ hw.lt_next c hc
    · simpa using hw.length_le
    · obtain ⟨c, hc, -, h2, h3, h4⟩ := hmem b hb'
      rw [h3, h2]
      exact hw.clean c hc (h4 ▸ hbd)
    · obtain ⟨c, hc, -, h2, -⟩ := hmem b hb'
      exact h2 ▸ hw.range c hc
  refine ⟨hwf, content_eq_of hwf (fun b hb' => ?_) fun s hs' => ?_, rfl⟩
  · obtain ⟨c, hc, -, h2, h3, -⟩ := hmem b hb'
    rw [h3, h2, content_of_mem hw hc]
  · change st.disk.sectors s = st.content s
    refine (content_of_notMem fun c hc hcs => ?_).symm
    refine hs' _ (List.mem_map.2 ⟨c, hc, rfl⟩) ?_
    split_ifs
    · rw [hs, hcs]
    · exact hcs

/-- What a miss does: the sector is the last entry, marked as accessed; the entry that was last
before, if it was accessed, is still there. -/
structure Loaded (st : Buffers) (sec a : ℕ) (st' : Buffers) : Prop where
  keeps : Keeps st st'
  range : sec < st.disk.capacity
  entry : ∃ l x, st'.list = l ++ [x] ∧ x.addr = a ∧ x.secNo = sec ∧ x.accessed = true
  last : ∀ l x, st.list = l ++ [x] → x.accessed = true → ∃ b ∈ st'.list, b.addr = x.addr ∧ b.secNo = x.secNo

/-- Append the entry of a sector that is not in the cache, holding what the disk holds. -/
theorem Buffers.Wf.append {st : Buffers} (hw : st.Wf) {sec : ℕ} (hsec : ∀ b ∈ st.list, b.secNo ≠ sec)
    (hlen : st.list.length < 64) (hcap : sec < st.disk.capacity) :
    Keeps st ⟨st.disk, st.list ++ [⟨st.next, sec, st.disk.sectors sec, true, false⟩], st.next + 1⟩ := by
  have hwf : Wf ⟨st.disk, st.list ++ [⟨st.next, sec, st.disk.sectors sec, true, false⟩], st.next + 1⟩ := by
    refine ⟨?_, ?_, fun b hb => ?_, ?_, fun b hb hbd => ?_, fun b hb => ?_⟩
    · rw [List.map_append, List.nodup_append]
      refine ⟨hw.secs, by simp, ?_⟩
      rintro s hs t ht rfl
      obtain ⟨b, hb, rfl⟩ := List.mem_map.1 hs
      exact hsec b hb (by simpa using ht)
    · rw [List.map_append, List.nodup_append]
      refine ⟨hw.addrs, by simp, ?_⟩
      rintro s hs t ht rfl
      obtain ⟨b, hb, rfl⟩ := List.mem_map.1 hs
      have := hw.lt_next b hb
      simp only [List.map_cons, List.map_nil, List.mem_singleton] at ht
      omega
    · rcases List.mem_append.1 hb with hb | hb
      · exact Nat.lt_succ_of_lt (hw.lt_next b hb)
      · rw [List.mem_singleton.1 hb]; exact Nat.lt_succ_self _
    · rw [List.length_append]
      exact hlen
    · rcases List.mem_append.1 hb with hb | hb
      · exact hw.clean b hb hbd
      · rw [List.mem_singleton.1 hb]
    · rcases List.mem_append.1 hb with hb | hb
      · exact hw.range b hb
      · rw [List.mem_singleton.1 hb]; exact hcap
  refine ⟨hwf, content_eq_of hwf (fun b hb => ?_) fun s hs => ?_, rfl⟩
  · rcases List.mem_append.1 hb with hb | hb
    · exact (content_of_mem hw hb).symm
    · rw [List.mem_singleton.1 hb]
      exact (content_of_notMem hsec).symm
  · exact (content_of_notMem fun b hb => hs b (List.mem_append_left _ hb)).symm

theorem load_spec {st : Buffers} {sec : ℕ} {E : Halt → Prop} (hw : st.Wf) (hsec : ∀ b ∈ st.list, b.secNo ≠ sec)
    (hE : ¬ sec < st.disk.capacity → E .sectorOutOfRange) :
    wp (load sec) (fun a st' => Loaded st sec a st') E st := by
  -- what remains to be done once there is room
  have hrest : ∀ st₁ : Buffers, Keeps st st₁ → (∀ b ∈ st₁.list, b.secNo ≠ sec) → st₁.list.length < 64 →
      (∀ l x, st.list = l ++ [x] → x.accessed = true → ∃ b ∈ st₁.list, b.addr = x.addr ∧ b.secNo = x.secNo) →
      wp (do
        let a ← newEntry sec
        let data ← diskRead sec
        updateEntry a fun b => { b with buffer := data, accessed := true }
        pure a) (fun a st' => Loaded st sec a st') E st₁ := by
    intro st₁ hk hsec₁ hlen hlast
    simp only [newEntry, updateEntry, wp_bind, wp_gets, wp_modify, wp_pure]
    refine wp_post (diskRead_spec fun hn => hE (by rwa [← hk.capacity])) ?_
    rintro data st' ⟨rfl, rfl, hcap⟩
    have hmap : (st₁.list.map fun b => if b.addr = st₁.next then
        { b with buffer := st₁.disk.sectors sec, accessed := true } else b) = st₁.list := by
      refine (List.map_congr_left fun b hb => ?_).trans (List.map_id _)
      rw [if_neg (hk.wf.lt_next b hb).ne]
      rfl
    simp only [List.map_append, List.map_cons, List.map_nil, if_true, hmap]
    refine ⟨hk.trans (hk.wf.append hsec₁ hlen hcap), by rw [← hk.capacity]; exact hcap,
      ⟨st₁.list, _, rfl, rfl, rfl, rfl⟩, fun l x hlx hacc => ?_⟩
    obtain ⟨b, hb, h⟩ := hlast l x hlx hacc
    exact ⟨b, List.mem_append_left _ hb, h⟩
  rw [load, wp_bind, wp_gets, wp_bind, wp_onlyIf]
  refine ⟨fun hfull => ?_, fun hroom => ?_⟩
  · have hne : st.list ≠ [] := by rintro h; rw [h] at hfull; simp at hfull
    refine wp_post (evict_spec hw hne) ?_
    rintro - st₁ hev
    refine hrest st₁ hev.keeps (fun b hb => ?_) ?_ fun l x hlx hacc => ?_
    · obtain ⟨c, hc, -, hcs⟩ := hev.mem b hb
      exact hcs ▸ hsec c hc
    · have := hev.length
      have := hw.length_le
      omega
    · refine hev.last l x hlx hacc ?_
      rintro rfl
      rw [hlx] at hfull
      simp at hfull
  · refine hrest st (Keeps.refl hw) hsec (by omega) fun l x hlx _ => ?_
    exact ⟨x, by rw [hlx]; simp, rfl, rfl⟩

/-- What a fetch does: it keeps every content, and the entry it gives is in the list. -/
structure Fetched (st : Buffers) (sec a : ℕ) (st' : Buffers) : Prop where
  keeps : Keeps st st'
  range : sec < st.disk.capacity
  entry : ∃ b ∈ st'.list, b.addr = a ∧ b.secNo = sec

theorem Fetched.content {st st' : Buffers} {sec a : ℕ} (h : Fetched st sec a st') :
    ∃ b ∈ st'.list, b.addr = a ∧ b.secNo = sec ∧ b.buffer = st.content sec := by
  obtain ⟨b, hb, ha, hs⟩ := h.entry
  refine ⟨b, hb, ha, hs, ?_⟩
  rw [← content_of_mem h.keeps.wf hb, hs, h.keeps.content]

/-- A hit only marks the entry. -/
theorem fetch_hit {st : Buffers} {ahead : CacheM Unit} {sec : ℕ} {b : BufferCacheEntry} {E : Halt → Prop} (hw : st.Wf)
    (hf : st.list.find? (fun b => b.secNo == sec) = some b) :
    wp (fetch ahead sec) (fun a st' => Fetched st sec a st' ∧
      ∀ x ∈ st.list, ∃ y ∈ st'.list, y.addr = x.addr ∧ y.secNo = x.secNo) E st := by
  have hb := List.mem_of_find?_eq_some hf
  have hs : b.secNo = sec := by simpa using List.find?_some hf
  have hkeep : ∀ x ∈ st.list, ∃ y ∈ st.list.map (fun c => if c.addr = b.addr then { c with accessed := true } else c),
      y.addr = x.addr ∧ y.secNo = x.secNo := by
    intro x hx
    refine ⟨_, List.mem_map.2 ⟨x, hx, rfl⟩, ?_⟩
    split_ifs <;> exact ⟨rfl, rfl⟩
  simp only [fetch, updateEntry, wp_bind, wp_gets, hf, wp_modify, wp_pure]
  obtain ⟨y, hy, hya, hys⟩ := hkeep b hb
  exact ⟨⟨hw.update_entry (fun _ => rfl) (fun _ => rfl) (fun _ => rfl) fun _ => rfl, hs ▸ hw.range b hb,
    y, hy, hya, hys.trans hs⟩, hkeep⟩

/-- Without read-ahead. -/
theorem fetch_spec {st : Buffers} {sec : ℕ} {E : Halt → Prop} (hw : st.Wf)
    (hE : ¬ sec < st.disk.capacity → E .sectorOutOfRange) :
    wp (fetch (pure ()) sec) (fun a st' => Fetched st sec a st' ∧
      ∀ l x, st.list = l ++ [x] → x.accessed = true → ∃ b ∈ st'.list, b.addr = x.addr ∧ b.secNo = x.secNo) E st := by
  cases hf : st.list.find? fun b => b.secNo == sec with
  | some b =>
    refine wp_post (fetch_hit hw hf) ?_
    rintro a st' ⟨h, hkeep⟩
    exact ⟨h, fun l x hlx _ => hkeep x (by rw [hlx]; simp)⟩
  | none =>
    have hsec : ∀ b ∈ st.list, b.secNo ≠ sec := fun b hb => by simpa using List.find?_eq_none.1 hf b hb
    simp only [fetch, wp_bind, wp_gets, hf]
    refine wp_post (load_spec hw hsec hE) ?_
    rintro a st' h
    obtain ⟨l, x, hl, ha, hs, -⟩ := h.entry
    exact ⟨⟨h.keeps, h.range, x, by rw [hl]; simp, ha, hs⟩, h.last⟩

/-- **`buffer_cache_check`**: no content changes, and the entry it gives is in the list (its own
read-ahead has not evicted it) and holds the content of the sector. It stops only past the end
of the disk: at the sector itself or, when it reads ahead, at the next one. -/
theorem bufferCacheCheck_spec {st : Buffers} {sec : ℕ} {write : Bool} {E : Halt → Prop} (hw : st.Wf)
    (hE : ¬ sec + write.toNat < st.disk.capacity → E .sectorOutOfRange) :
    wp (bufferCacheCheck sec write) (fun a st' => Fetched st sec a st') E st := by
  cases write with
  | false =>
    rw [bufferCacheCheck]
    exact wp_post (fetch_spec hw hE) fun _ _ h => h.1
  | true =>
    rw [bufferCacheCheck]
    cases hf : st.list.find? fun b => b.secNo == sec with
    | some b => exact wp_post (fetch_hit hw hf) fun _ _ h => h.1
    | none =>
      have hsec : ∀ b ∈ st.list, b.secNo ≠ sec := fun b hb => by simpa using List.find?_eq_none.1 hf b hb
      rw [Bool.toNat_true] at hE
      simp only [fetch.eq_def _ sec, wp_bind, wp_gets, hf, wp_pure]
      refine wp_post (load_spec hw hsec fun hn => hE (by omega)) ?_
      rintro a st₁ h
      obtain ⟨l, x, hl, ha, hs, hacc⟩ := h.entry
      refine wp_post (fetch_spec h.keeps.wf fun hn => hE (by rwa [← h.keeps.capacity])) ?_
      rintro _ st₂ ⟨h₂, hlast⟩
      obtain ⟨b, hb, hba, hbs⟩ := hlast l x hl hacc
      exact ⟨h.keeps.trans h₂.keeps, h.range, b, hb, hba.trans ha, hbs.trans hs⟩

/-! ### Writing and flushing -/

/-- The entry at an address in the list. -/
theorem entryAt_spec {st : Buffers} {b : BufferCacheEntry} {E : Halt → Prop} (hw : st.Wf) (hb : b ∈ st.list) :
    wp (entryAt b.addr) (fun c st' => c = b ∧ st' = st) E st := by
  rw [entryAt, wp_bind, wp_gets, wp_orStop]
  constructor
  · intro c hc
    have hcb : c.addr = b.addr := by simpa using List.find?_some hc
    exact ⟨hw.eq_of_addr (List.mem_of_find?_eq_some hc) hb hcb, rfl⟩
  · intro hn
    exact absurd (by simp) (List.find?_eq_none.1 hn b hb)

/-- Write `n` bytes into the entry of a sector. -/
theorem Buffers.Wf.write_entry {st : Buffers} (hw : st.Wf) {b : BufferCacheEntry} (hb : b ∈ st.list) (ofs n : ℕ)
    (src : ℕ → UInt8) (st' : Buffers) (hst : st' = { st with list := st.list.map fun c =>
      if c.addr = b.addr then { c with buffer := c.buffer.write ofs n src, dirty := true } else c }) :
    st'.Wf ∧ st'.disk.capacity = st.disk.capacity ∧
      ∀ s, st'.content s = if s = b.secNo then (st.content s).write ofs n src else st.content s := by
  subst hst
  have hmem : ∀ x ∈ st.list.map (fun c => if c.addr = b.addr then
        { c with buffer := c.buffer.write ofs n src, dirty := true } else c),
      ∃ c ∈ st.list, x.addr = c.addr ∧ x.secNo = c.secNo ∧
        (c = b ∧ x.buffer = b.buffer.write ofs n src ∧ x.dirty = true ∨ c ≠ b ∧ x = c) := by
    intro x hx
    obtain ⟨c, hc, rfl⟩ := List.mem_map.1 hx
    refine ⟨c, hc, ?_⟩
    by_cases hcb : c.addr = b.addr
    · obtain rfl := hw.eq_of_addr hc hb hcb
      rw [if_pos rfl]
      exact ⟨rfl, rfl, Or.inl ⟨rfl, rfl, rfl⟩⟩
    · rw [if_neg hcb]
      exact ⟨rfl, rfl, Or.inr ⟨fun h => hcb (h ▸ rfl), rfl⟩⟩
  have hwf : Wf { st with list := st.list.map fun c =>
      if c.addr = b.addr then { c with buffer := c.buffer.write ofs n src, dirty := true } else c } := by
    refine ⟨?_, ?_, fun x hx => ?_, ?_, fun x hx hxd => ?_, fun x hx => ?_⟩
    · rw [map_entry_eq (f := fun c => { c with buffer := c.buffer.write ofs n src, dirty := true })
        BufferCacheEntry.secNo fun _ => rfl]
      exact hw.secs
    · rw [map_entry_eq (f := fun c => { c with buffer := c.buffer.write ofs n src, dirty := true })
        BufferCacheEntry.addr fun _ => rfl]
      exact hw.addrs
    · obtain ⟨c, hc, h1, -⟩ := hmem x hx
      exact h1 ▸ hw.lt_next c hc
    · simpa using hw.length_le
    · obtain ⟨c, hc, -, -, ⟨-, -, hd⟩ | ⟨-, rfl⟩⟩ := hmem x hx
      · rw [hd] at hxd; cases hxd
      · exact hw.clean x hc hxd
    · obtain ⟨c, hc, -, h2, -⟩ := hmem x hx
      exact h2 ▸ hw.range c hc
  refine ⟨hwf, rfl, fun s => ?_⟩
  by_cases h : ∃ x ∈ st.list.map (fun c => if c.addr = b.addr then
        { c with buffer := c.buffer.write ofs n src, dirty := true } else c), x.secNo = s
  · obtain ⟨x, hx, rfl⟩ := h
    rw [content_of_mem hwf hx]
    obtain ⟨c, hc, -, h2, ⟨rfl, hbuf, -⟩ | ⟨hne, rfl⟩⟩ := hmem x hx
    · rw [if_pos h2, hbuf, h2, content_of_mem hw hb]
    · rw [if_neg fun hs => hne (hw.eq_of_secNo hc hb hs), content_of_mem hw hc]
  · have hout : ∀ c ∈ st.list, c.secNo ≠ s := by
      intro c hc hcs
      refine h ⟨_, List.mem_map.2 ⟨c, hc, rfl⟩, ?_⟩
      split_ifs <;> exact hcs
    rw [if_neg fun hs => hout b hb hs.symm, content_of_notMem hout]
    exact content_of_notMem fun x hx hxs => h ⟨x, hx, hxs⟩

/-- What a write does to the contents: `n` bytes of sector `sec` from `ofs` on are those of
`src`; all others are as before. -/
structure Written (st : Buffers) (sec : ℕ) (src : ℕ → UInt8) (ofs n : ℕ) (st' : Buffers) : Prop where
  wf : st'.Wf
  capacity : st'.disk.capacity = st.disk.capacity
  content : ∀ s, st'.content s = if s = sec then (st.content s).write ofs n src else st.content s

/-- **`buffer_cache_write`**. -/
theorem bufferCacheWrite_spec {st : Buffers} {sec : ℕ} {src : ℕ → UInt8} {ofs n : ℕ} {E : Halt → Prop} (hw : st.Wf)
    (hn : ofs + n ≤ sectorSize) (hE : ¬ sec + 1 < st.disk.capacity → E .sectorOutOfRange) :
    wp (bufferCacheWrite sec src ofs n) (fun _ st' => Written st sec src ofs n st') E st := by
  rw [bufferCacheWrite, wp_bind]
  refine wp_post (bufferCacheCheck_spec hw hE) ?_
  rintro a st₁ h
  obtain ⟨b, hb, rfl, hs⟩ := h.entry
  rw [wp_bind]
  refine wp_post (entryAt_spec h.keeps.wf hb) ?_
  rintro _ st₂ ⟨-, rfl⟩
  rw [if_pos hn, updateEntry, wp_modify]
  obtain ⟨hwf, hcap, hcont⟩ := h.keeps.wf.write_entry hb ofs n src _ rfl
  refine ⟨hwf, hcap.trans h.keeps.capacity, fun s => ?_⟩
  rw [hcont, hs, h.keeps.content]

/-- **Reading a sector through the cache** gives its content and changes none. -/
theorem bufferCacheRead_spec {st : Buffers} {sec : ℕ} {write : Bool} {E : Halt → Prop} (hw : st.Wf)
    (hE : ¬ sec + write.toNat < st.disk.capacity → E .sectorOutOfRange) :
    wp (bufferCacheRead sec write) (fun b st' => b = st.content sec ∧ Keeps st st') E st := by
  rw [bufferCacheRead, wp_bind]
  refine wp_post (bufferCacheCheck_spec hw hE) ?_
  rintro a st₁ h
  obtain ⟨b, hb, rfl, -, hbuf⟩ := h.content
  rw [wp_bind]
  refine wp_post (entryAt_spec h.keeps.wf hb) ?_
  rintro c st₂ ⟨rfl, rfl⟩
  rw [wp_pure]
  exact ⟨hbuf, h.keeps⟩

/-- Writing back a list of entries: the disk takes the buffers of the dirty ones. -/
theorem writeBack_spec {l : List BufferCacheEntry} {st : Buffers} {E : Halt → Prop}
    (hr : ∀ b ∈ l, b.secNo < st.disk.capacity) (hn : (l.map BufferCacheEntry.secNo).Nodup) :
    wp (writeBack l) (fun l' st' => l' = l.map (fun b => { b with dirty := false }) ∧ st'.list = st.list ∧
      st'.next = st.next ∧ st'.disk.capacity = st.disk.capacity ∧
      (∀ b ∈ l, st'.disk.sectors b.secNo = if b.dirty then b.buffer else st.disk.sectors b.secNo) ∧
      ∀ s, (∀ b ∈ l, b.secNo ≠ s) → st'.disk.sectors s = st.disk.sectors s) E st := by
  induction l generalizing st with
  | nil => rw [writeBack, wp_pure]; exact ⟨rfl, rfl, rfl, rfl, by simp, fun _ _ => rfl⟩
  | cons b l ih =>
    rw [List.map_cons, List.nodup_cons] at hn
    have hne : ∀ c ∈ l, c.secNo ≠ b.secNo := fun c hc h => hn.1 (List.mem_map.2 ⟨c, hc, h⟩)
    -- the rest of the list, after the first entry was written back or not
    have hrest : ∀ d : Disk, (d = if b.dirty then st.disk.store b.secNo b.buffer else st.disk) →
        wp (do let l' ← writeBack l; pure ({ b with dirty := false } :: l'))
          (fun l' st' => l' = (b :: l).map (fun b => { b with dirty := false }) ∧ st'.list = st.list ∧
            st'.next = st.next ∧ st'.disk.capacity = st.disk.capacity ∧
            (∀ b' ∈ b :: l, st'.disk.sectors b'.secNo = if b'.dirty then b'.buffer else st.disk.sectors b'.secNo) ∧
            ∀ s, (∀ b' ∈ b :: l, b'.secNo ≠ s) → st'.disk.sectors s = st.disk.sectors s) E { st with disk := d } := by
      intro d hd
      have hcap : d.capacity = st.disk.capacity := by rw [hd]; split_ifs <;> rfl
      have hother : ∀ s, s ≠ b.secNo → d.sectors s = st.disk.sectors s := by
        intro s hs
        rw [hd]
        split_ifs
        · exact Disk.sectors_store_of_ne _ _ hs
        · rfl
      rw [wp_bind]
      refine wp_post (ih (fun c hc => ?_) hn.2) ?_
      · rw [hcap]; exact hr c (List.mem_cons_of_mem _ hc)
      · rintro l' st' ⟨rfl, hl, hnext, hcap', hin, hout⟩
        rw [wp_pure]
        refine ⟨rfl, hl, hnext, hcap'.trans hcap, fun c hc => ?_, fun s hs => ?_⟩
        · rcases List.mem_cons.1 hc with rfl | hc
          · rw [hout _ hne, hd]
            split_ifs
            · exact Disk.sectors_store_self _ _ _
            · rfl
          · rw [hin c hc, hother _ (hne c hc)]
        · rw [hout s fun c hc => hs c (List.mem_cons_of_mem _ hc)]
          exact hother s (hs b List.mem_cons_self).symm
    rw [writeBack, wp_bind, wp_onlyIf]
    refine ⟨fun hdirty => ?_, fun hclean => ?_⟩
    · refine wp_post (diskWrite_spec (hr b List.mem_cons_self)) ?_
      rintro - st' rfl
      exact hrest _ (by rw [if_pos hdirty])
    · exact hrest _ (by rw [if_neg hclean])

/-- **`buffer_cache_write_dirties_once`**: no content changes, and the disk then holds the content
of every sector. -/
theorem bufferCacheWriteDirtiesOnce_spec {st : Buffers} {E : Halt → Prop} (hw : st.Wf) :
    wp bufferCacheWriteDirtiesOnce (fun _ st' => Keeps st st' ∧ ∀ s, st'.disk.sectors s = st.content s) E st := by
  rw [bufferCacheWriteDirtiesOnce, wp_bind, wp_gets, wp_bind]
  refine wp_post (writeBack_spec hw.range hw.secs) ?_
  rintro l' st' ⟨rfl, -, hnext, hcap, hin, hout⟩
  rw [wp_modify]
  have hdisk : ∀ s, st'.disk.sectors s = st.content s := by
    intro s
    by_cases h : ∃ b ∈ st.list, b.secNo = s
    · obtain ⟨b, hb, rfl⟩ := h
      rw [hin b hb, content_of_mem hw hb]
      split_ifs with hd
      · rfl
      · exact (hw.clean b hb (by simpa using hd)).symm
    · have hno : ∀ b ∈ st.list, b.secNo ≠ s := fun b hb hs => h ⟨b, hb, hs⟩
      rw [hout s hno, content_of_notMem hno]
  have hmem : ∀ x ∈ st.list.map (fun b => { b with dirty := false }),
      ∃ b ∈ st.list, x.addr = b.addr ∧ x.secNo = b.secNo ∧ x.buffer = b.buffer := by
    intro x hx
    obtain ⟨b, hb, rfl⟩ := List.mem_map.1 hx
    exact ⟨b, hb, rfl, rfl, rfl⟩
  have hwf : Wf { st' with list := st.list.map fun b => { b with dirty := false } } := by
    refine ⟨by rw [List.map_map]; exact hw.secs, by rw [List.map_map]; exact hw.addrs, fun x hx => ?_, ?_,
      fun x hx _ => ?_, fun x hx => ?_⟩
    · obtain ⟨b, hb, ha, -⟩ := hmem x hx
      change x.addr < st'.next
      rw [ha, hnext]
      exact hw.lt_next b hb
    · simpa using hw.length_le
    · obtain ⟨b, hb, -, hs, hbuf⟩ := hmem x hx
      change x.buffer = st'.disk.sectors x.secNo
      rw [hbuf, hs, hdisk, content_of_mem hw hb]
    · obtain ⟨b, hb, -, hs, -⟩ := hmem x hx
      change x.secNo < st'.disk.capacity
      rw [hs, hcap]
      exact hw.range b hb
  refine ⟨⟨hwf, content_eq_of hwf (fun x hx => ?_) fun s _ => hdisk s, hcap⟩, hdisk⟩
  obtain ⟨b, hb, -, hs, hbuf⟩ := hmem x hx
  rw [hbuf, hs, content_of_mem hw hb]

/-! ### Runs -/

/-- The operations of the cache. -/
inductive CacheOp where
  /-- `buffer_cache_check (disk, sec, write)`. -/
  | check (sec : ℕ) (write : Bool)
  /-- `buffer_cache_write (disk, sec, src, ofs, n)`. -/
  | write (sec : ℕ) (src : ℕ → UInt8) (ofs n : ℕ)
  /-- `buffer_cache_write_dirties_once (disk)`. -/
  | flush

namespace CacheOp

/-- What an operation does. -/
def step : CacheOp → CacheM Unit
  | .check sec ahead => do let _ ← bufferCacheCheck sec ahead; pure ()
  | .write sec src ofs n => bufferCacheWrite sec src ofs n
  | .flush => bufferCacheWriteDirtiesOnce

/-- The operations of a run are on sectors that have a next one, and write inside the sector. -/
def Ok : CacheOp → Buffers → Prop
  | .check sec _, st => sec + 1 < st.disk.capacity
  | .write sec _ ofs n, st => sec + 1 < st.disk.capacity ∧ ofs + n ≤ sectorSize
  | .flush, _ => True

end CacheOp

theorem CacheOp.step_wf {op : CacheOp} {st : Buffers} {d : Disk} (hw : st.Wf) (hcap : st.disk.capacity = d.capacity) :
    wp op.step (fun _ st' => st'.Wf ∧ st'.disk.capacity = d.capacity) (fun _ => True) st := by
  cases op with
  | check sec write =>
    rw [step, wp_bind]
    refine wp_post (bufferCacheCheck_spec hw fun _ => trivial) ?_
    rintro a st' h
    exact ⟨h.keeps.wf, h.keeps.capacity.trans hcap⟩
  | write sec src ofs n =>
    by_cases hn : ofs + n ≤ sectorSize
    · refine wp_post (bufferCacheWrite_spec hw hn fun _ => trivial) ?_
      rintro - st' h
      exact ⟨h.wf, h.capacity.trans hcap⟩
    · -- a write past the end of the buffer does not return
      rw [step, bufferCacheWrite, wp_bind]
      refine wp_post (bufferCacheCheck_spec hw fun _ => trivial) ?_
      rintro a st₁ h
      obtain ⟨b, hb, rfl, -⟩ := h.entry
      rw [wp_bind]
      refine wp_post (entryAt_spec h.keeps.wf hb) ?_
      rintro _ st₂ ⟨-, rfl⟩
      rw [if_neg hn]
      trivial
  | flush =>
    refine wp_post (bufferCacheWriteDirtiesOnce_spec hw) ?_
    rintro - st' ⟨h, -⟩
    exact ⟨h.wf, h.capacity.trans hcap⟩

/-- The invariant of the cache holds along every run. -/
theorem reachable_wf {d : Disk} {st : Buffers} (h : Run CacheOp.step CacheOp.Ok (Buffers.init d) st) :
    st.Wf ∧ st.disk.capacity = d.capacity :=
  h.invariant ⟨wf_init d, rfl⟩ fun _ _ hi _ => CacheOp.step_wf hi.1 hi.2

/-- **The cache is coherent along every run**: it holds no sector twice and at most 64 entries,
and a clean entry equals its sector on the disk; a check and a flush change no content, the
entry a check gives is in the list and holds the content of its sector; a write changes the
bytes it is given and no others; and after a flush the disk holds every content. -/
theorem cache_coherent {d : Disk} {st : Buffers} (h : Run CacheOp.step CacheOp.Ok (Buffers.init d) st) :
    (st.list.map BufferCacheEntry.secNo).Nodup ∧ st.list.length ≤ 64 ∧
    (∀ b ∈ st.list, b.dirty = false → b.buffer = st.disk.sectors b.secNo) ∧
    (∀ sec write, sec + 1 < d.capacity → ∃ a st', bufferCacheCheck sec write st = .ok (a, st') ∧
      (∀ s, st'.content s = st.content s) ∧
      ∃ b ∈ st'.list, b.addr = a ∧ b.secNo = sec ∧ b.buffer = st.content sec) ∧
    (∀ sec src ofs n, sec + 1 < d.capacity → ofs + n ≤ sectorSize →
      ∃ st', bufferCacheWrite sec src ofs n st = .ok ((), st') ∧
        ∀ s i, st'.content s i =
          if s = sec ∧ ofs ≤ i.1 ∧ i.1 < ofs + n then src (i.1 - ofs) else st.content s i) ∧
    ∃ st', bufferCacheWriteDirtiesOnce st = .ok ((), st') ∧
      (∀ s, st'.content s = st.content s) ∧ ∀ s, st'.disk.sectors s = st'.content s := by
  obtain ⟨hw, hcap⟩ := reachable_wf h
  refine ⟨hw.secs, hw.length_le, hw.clean, fun sec write hsec => ?_, fun sec src ofs n hsec hn => ?_, ?_⟩
  · have hsec' : sec + write.toNat < st.disk.capacity := by
      rw [hcap]
      have := write.toNat_le
      omega
    obtain ⟨a, st', hrun, hf⟩ := exists_ok (bufferCacheCheck_spec hw fun hn => hn hsec')
    exact ⟨a, st', hrun, hf.keeps.content, hf.content⟩
  · have hwrite : wp (bufferCacheWrite sec src ofs n) (fun _ st' => Written st sec src ofs n st') (fun _ => False) st :=
      bufferCacheWrite_spec hw hn fun hn => hn (by rwa [hcap])
    obtain ⟨_, st', hrun, hf⟩ := exists_ok hwrite
    refine ⟨st', hrun, fun s i => ?_⟩
    rw [hf.content]
    by_cases hs : s = sec
    · simp only [hs, if_true, true_and]
      rfl
    · simp only [hs, if_false, false_and]
  · obtain ⟨_, st', hrun, hf, hdisk⟩ := exists_ok (bufferCacheWriteDirtiesOnce_spec (E := fun _ => False) hw)
    exact ⟨st', hrun, hf.content, fun s => (hdisk s).trans (hf.content s).symm⟩

/-- A disk of `n` sectors of zeros. -/
def Disk.blank (n : ℕ) (h : n ≤ 2 ^ 28) : Disk := ⟨n, fun _ => Block.zero, h⟩

/-- A run of one write, of a byte into sector `1` of a disk of four sectors, is coherent. -/
theorem cache_coherent_write : ∃ st,
    Run CacheOp.step CacheOp.Ok (Buffers.init (Disk.blank 4 (by decide))) st ∧
    st.content 1 0 = 7 ∧ (st.list.map BufferCacheEntry.secNo).Nodup ∧
    ∃ st', bufferCacheWriteDirtiesOnce st = .ok ((), st') ∧ st'.disk.sectors 1 0 = 7 := by
  have hwrite : wp (bufferCacheWrite 1 (fun _ => 7) 0 1) (fun _ st' => Written _ 1 (fun _ => 7) 0 1 st') (fun _ => False)
      (Buffers.init (Disk.blank 4 (by decide))) :=
    bufferCacheWrite_spec (wf_init _) (by decide) fun hn => hn (by decide)
  obtain ⟨_, st, hrun, hf⟩ := exists_ok hwrite
  have hst : Run CacheOp.step CacheOp.Ok (Buffers.init (Disk.blank 4 (by decide))) st :=
    .tail (i := .write 1 (fun _ => 7) 0 1) (.refl _) ⟨by decide, by decide⟩ hrun
  obtain ⟨hnodup, -, -, -, -, st', hflush, hsame, hdisk⟩ := cache_coherent hst
  have h7 : st.content 1 0 = 7 := by rw [hf.content]; rfl
  exact ⟨st, hst, h7, hnodup, st', hflush, by rw [hdisk, hsame, h7]⟩

end Pintos
