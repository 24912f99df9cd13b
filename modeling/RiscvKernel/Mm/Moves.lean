import RiscvKernel.Mm.Space

/-!
# Moving pages

What allocations, writes to pages, writes to last tables and `map_page` do to an address space that is in
order. The larger functions are put together from these steps.
-/

namespace RiscvKernel.Mm

open Lib

/-! ## Steps beside the tables -/

section beside
variable {X : Set Owner} {m m' : Memory} {own own' : ℕ → Owner}

/-- The tables see only their own pages. -/
theorem TablesOk.congr (T : TablesOk m own) (A : Aligned own)
    (hown : ∀ p, own' p ≠ own p → ¬ (own p).IsTable ∧ ¬ (own' p).IsTable ∧
      ∀ t r k j, own t = .tab r k → j < 512 → Present (readPte m (t + 8 * j)) → target (readPte m (t + 8 * j)) ≠ p)
    (hmem : ∀ p, (own p).IsTable → ∀ a, InPage p a → m'.mem a = m.mem a) : TablesOk m' own' := by
  have htable {p : ℕ} (hp : (own p).IsTable) : own' p = own p := by
    by_contra hne
    exact (hown p hne).1 hp
  have htable' {p : ℕ} (hp : (own' p).IsTable) : own' p = own p := by
    by_contra hne
    exact (hown p hne).2.1 hp
  have hread {p j : ℕ} (hp : (own p).IsTable) (hj : j < 512) : readPte m' (p + 8 * j) = readPte m (p + 8 * j) := by
    have := A p hp.used.1
    exact readPte_congr fun i hi => hmem p hp _ ⟨by omega, by omega⟩
  have hplace {r a : ℕ} {o : Owner} (hp : Place own r a o) : readPte m' a = readPte m a := by
    cases hp with
    | mid hr hi => exact hread (by rw [hr]; trivial) (by omega)
    | tab hm hj => exact hread (by rw [hm]; trivial) hj
  have hback {r a : ℕ} {o : Owner} (hp : Place own' r a o) : Place own r a o := by
    cases hp with
    | mid hr hi => exact .mid ((htable' (by rw [hr]; trivial)).symm.trans hr) hi
    | tab hm hj => exact .tab ((htable' (by rw [hm]; trivial)).symm.trans hm) hj
  have hforth {r a : ℕ} {o : Owner} (hp : Place own r a o) : Place own' r a o := by
    cases hp with
    | mid hr hi => exact .mid ((htable (by rw [hr]; trivial)).trans hr) hi
    | tab hm hj => exact .tab ((htable (by rw [hm]; trivial)).trans hm) hj
  refine ⟨fun {r a o} hp hpr => ?_, fun {r p} hb => ?_, fun {p r k j} hp hj => ?_⟩
  · have hp := hback hp
    rw [hplace hp] at hpr ⊢
    have hd := T.down hp hpr
    exact (htable (by rw [hd]; exact hp.below.isTable)).trans hd
  · have hkeep := htable' hb.isTable
    rw [hkeep] at hb ⊢
    obtain ⟨a, hp, hpr, hta⟩ := T.up hb
    rw [← hplace hp] at hpr hta
    exact ⟨a, hforth hp, hpr, hta⟩
  · have hp : own p = .tab r k := (htable' (by rw [hp]; trivial)).symm.trans hp
    rw [hread (by rw [hp]; trivial) hj]
    have hleaf := T.leaf hp hj
    have htarget (hpr : Present (readPte m (p + 8 * j))) :
        own' (target (readPte m (p + 8 * j))) = own (target (readPte m (p + 8 * j))) := by
      by_contra hne
      exact (hown _ hne).2.2 p r k j hp hj hpr rfl
    refine ⟨fun hpr hs => (htarget hpr).trans (hleaf.data hpr hs), fun hpr hs => ?_⟩
    obtain ⟨i, hi⟩ := hleaf.shm hpr hs
    exact ⟨i, (htarget hpr).trans hi⟩

/-- The same tables with the same contents give the same entries. -/
theorem TablesOk.same (T : TablesOk m own) (T' : TablesOk m' own') (A : Aligned own)
    (htable : ∀ p, (own p).IsTable ∨ (own' p).IsTable → own' p = own p)
    (hmem : ∀ p r k, own p = .tab r k → ∀ a, InPage p a → m'.mem a = m.mem a) {r v : ℕ} (hr : own r = .root)
    (hv : v < userPages) :
    getPte (v * 4096) r m' = getPte (v * 4096) r m ∧ entry m' r v = entry m r v := by
  have hvv : vpn (v * 4096) = v := vpn_mul (hv.trans (by norm_num))
  have hr' : own' r = .root := (htable r (Or.inl (by rw [hr]; trivial))).trans hr
  have htab (t : ℕ) : own' t = .tab r (v / 512) ↔ own t = .tab r (v / 512) := by
    constructor
    · exact fun h => (htable t (Or.inr (by rw [h]; trivial))).symm.trans h
    · exact fun h => (htable t (Or.inl (by rw [h]; trivial))).trans h
  have hpte : getPte (v * 4096) r m' = getPte (v * 4096) r m := by
    ext a
    rw [T.getPte_iff hr (by rw [hvv]; exact hv), T'.getPte_iff hr' (by rw [hvv]; exact hv), hvv]
    exact exists_congr fun t => and_congr_left fun _ => htab t
  refine ⟨hpte, ?_⟩
  unfold entry
  rw [hpte]
  cases ha : getPte (v * 4096) r m with
  | none => rfl
  | some a =>
    obtain ⟨t, ht, rfl⟩ := (T.getPte_iff hr (by rw [hvv]; exact hv)).1 ha
    have := A t (by rw [ht]; exact nofun)
    exact readPte_congr fun i hi => hmem t _ _ ht _ ⟨by omega, by omega⟩

/-- **A step beside the tables**: it changes pages that are no tables, and the owners of pages that no entry
leads to. -/
theorem SpaceOk.beside (S : SpaceOk m own) (H' : HeapOwned m' own') (R : SameRest m m')
    (hX : ∀ o ∈ X, ∃ i, o = .pipe i)
    (hown : ∀ p, own' p ≠ own p → ¬ (own p).IsTable ∧ ¬ (own' p).IsTable ∧ ((own p).Held → own p ∈ X) ∧
      ∀ i, own' p ≠ .shm i)
    (hmem : ∀ a, m'.mem a ≠ m.mem a → ∃ p, InPage p a ∧ IsPage p ∧ ¬ (own p).IsTable) :
    SpaceOk m' own' ∧ Frame X m own m' own' := by
  have A := S.heap.aligned
  have hdata (r v : ℕ) : Owner.data r v ∉ X := fun h => by
    obtain ⟨i, hi⟩ := hX _ h
    cases hi
  have hshm (i : ℕ) : Owner.shm i ∉ X := fun h => by
    obtain ⟨j, hj⟩ := hX _ h
    cases hj
  have hpages (p : ℕ) (hp : (own p).IsTable) (a : ℕ) (ha : InPage p a) : m'.mem a = m.mem a := by
    by_contra hne
    obtain ⟨q, hq, hqp, hqt⟩ := hmem a hne
    obtain rfl := inPage_unique (A p hp.used.1) hqp.1 ha hq
    exact hqt hp
  have htable (p : ℕ) (hp : (own p).IsTable ∨ (own' p).IsTable) : own' p = own p := by
    by_contra hne
    obtain ⟨h1, h2, -⟩ := hown p hne
    exact hp.elim h1 h2
  have T' : TablesOk m' own' := by
    refine S.tables.congr A (fun p hne => ?_) hpages
    obtain ⟨h1, h2, h3, -⟩ := hown p hne
    refine ⟨h1, h2, fun t r k j ht hj hpr htp => ?_⟩
    have hleaf := S.tables.leaf ht hj
    by_cases hs : getAttribute (readPte m (t + 8 * j)) pageShm = 0
    · have ho := hleaf.data hpr hs
      rw [htp] at ho
      rw [ho] at h3
      exact hdata _ _ (h3 trivial)
    · obtain ⟨i, ho⟩ := hleaf.shm hpr hs
      rw [htp] at ho
      rw [ho] at h3
      exact hshm _ (h3 trivial)
  have hsame {r v : ℕ} (hr : own r = .root) (hv : v < userPages) :=
    S.tables.same T' A htable (fun p r k hp => hpages p (by rw [hp]; trivial)) hr hv
  have F : Frame X m own m' own' := by
    refine ⟨fun r => ⟨fun h => ?_, fun h => ?_⟩, fun p hp hx => ?_, fun p i hp => ?_, fun hr hv _ ha => ?_,
      fun hr hv _ => ?_, fun a ha => ?_⟩
    · exact (htable r (Or.inr (by rw [h]; trivial))).symm.trans h
    · exact (htable r (Or.inl (by rw [h]; trivial))).trans h
    · by_contra hne
      exact hx ((hown p hne).2.2.1 hp)
    · by_contra hne
      exact (hown p fun he => hne (he ▸ hp)).2.2.2 i hp
    · rw [(hsame hr hv).1, ha]
    · rw [(hsame hr hv).2]
      exact Like.refl _
    · by_contra hne
      obtain ⟨q, hq, hqp, -⟩ := hmem a hne
      have h1 := hqp.2.1
      have h2 := hq.1
      omega
  exact ⟨S.frame H' T' F R (fun r v _ _ h => absurd h (hdata r v)) hshm, F⟩

end beside

/-! ## Pages of the kernel -/

section pages
variable {m m' : Memory} {own : ℕ → Owner} {p : ℕ} {X : Set Owner}

theorem update_ne {q : ℕ} {o : Owner} (h : Function.update own p o q ≠ own q) : q = p := by
  by_contra hne
  exact h (Function.update_of_ne hne _ _)

theorem HeapOwned.curr_le (H : HeapOwned m own) : m.kernMemCurr % 4096 = 0 ∧ m.kernMemCurr ≤ 2 ^ 64 := by
  obtain ⟨live, freed, hi, -, -⟩ := H
  exact ⟨hi.curr.1, hi.curr.2.2⟩

/-- Writes to a page do not touch the pages of other owners. -/
theorem untouched_of_page (A : Aligned own) (hu : own p ≠ .unused) (hp : (own p).Held → own p ∈ X)
    (hmem : ∀ a, ¬ InPage p a → m'.mem a = m.mem a) : Untouched X m own m' := by
  intro q hq hx a ha
  refine hmem a fun hpa => ?_
  obtain rfl := inPage_unique (A q hq.used.1) (A p hu) ha hpa
  exact hx (hp hq)

/-- **allocPage** gives a page to the kernel. -/
theorem SpaceOk.alloc (S : SpaceOk m own) (hroom : m.kernMemCurr + 4096 ≤ 2 ^ 64) :
    SpaceOk (allocPage 1 m).2 (Function.update own (allocPage 1 m).1 .kernel) ∧
      Frame ∅ m own (allocPage 1 m).2 (Function.update own (allocPage 1 m).1 .kernel) ∧
      Untouched ∅ m own (allocPage 1 m).2 ∧ ¬ (own (allocPage 1 m).1).Used ∧ IsPage (allocPage 1 m).1 ∧
      (allocPage 1 m).2.kernMemCurr ≤ m.kernMemCurr + 4096 := by
  obtain ⟨H, hnew⟩ := S.heap.alloc le_rfl hroom
  rw [HeapOwned.handOut_one] at H
  have hu : ¬ (own (allocPage 1 m).1).Used := hnew _ (by rw [pagesFrom_one]; exact List.mem_cons_self)
  have hcurr := (allocPage_curr m 1 S.heap.curr_le.1 (by omega)).2
  generalize hq : (allocPage 1 m).1 = q at *
  have hpage : IsPage q := H.isPage (by rw [Function.update_self]; exact nofun)
  have hnt : ¬ (own q).IsTable := fun h => hu h.used
  obtain ⟨S', F⟩ := S.beside (X := ∅) H (allocPage_rest 1 m) (fun o ho => absurd ho id) (fun x hx => by
      rw [update_ne hx, Function.update_self]
      exact ⟨hnt, id, fun h => absurd h.used hu, fun i => nofun⟩)
    (fun a ha => ⟨q, by
      by_contra hn
      exact ha (allocPage_mem (by rw [hq]; exact hn)), hpage, hnt⟩)
  refine ⟨S', F, fun x hx _ a ha => ?_, hu, hpage, hcurr⟩
  refine allocPage_mem fun hqa => hu ?_
  rw [hq] at hqa
  obtain rfl := inPage_unique (S.heap.aligned x hx.used.1) hpage.1 ha hqa
  exact hx.used

/-- **freePage** of a page of the kernel. -/
theorem SpaceOk.free (S : SpaceOk m own) (hp : own p = .kernel) :
    SpaceOk (freePage p m) (Function.update own p .free) ∧
      Frame ∅ m own (freePage p m) (Function.update own p .free) ∧ Untouched ∅ m own (freePage p m) := by
  have hu : (own p).Used := by
    rw [hp]
    exact ⟨nofun, nofun⟩
  have hpage : IsPage p := S.heap.isPage hu.1
  have hnt : ¬ (own p).IsTable := by
    rw [hp]
    exact id
  obtain ⟨S', F⟩ := S.beside (X := ∅) (S.heap.free hu) (freePage_rest p m) (fun o ho => absurd ho id) (fun x hx => by
      rw [update_ne hx, Function.update_self]
      exact ⟨hnt, id, fun h => absurd h (by rw [hp]; exact id), fun i => nofun⟩)
    (fun a ha => ⟨p, by
      by_contra hn
      exact ha (freePage_mem hn), hpage, hnt⟩)
  refine ⟨S', F, untouched_of_page S.heap.aligned hu.1 (fun h => absurd h (by rw [hp]; exact id)) fun a ha => ?_⟩
  exact freePage_mem ha

/-- **Writes to a page** that is no table. -/
theorem SpaceOk.scribble (S : SpaceOk m own) (hu : (own p).Used) (hnt : ¬ (own p).IsTable)
    (hmem : ∀ a, ¬ InPage p a → m'.mem a = m.mem a) (R : SameRest m m')
    (hlist : m'.freePageList = m.freePageList) (hcount : m'.freePageListCount = m.freePageListCount)
    (hcurr : m'.kernMemCurr = m.kernMemCurr) : SpaceOk m' own ∧ Frame ∅ m own m' own := by
  have hpage : IsPage p := S.heap.isPage hu.1
  refine S.beside (S.heap.congr (fun f hf a ha => hmem a fun hpa => ?_) hlist hcount hcurr) R
    (fun o ho => absurd ho id) (fun x hx => absurd rfl hx) (fun a ha => ⟨p, by
      by_contra hn
      exact ha (hmem a hn), hpage, hnt⟩)
  obtain rfl := inPage_unique (S.heap.aligned f (by rw [hf]; exact nofun)) hpage.1 ha hpa
  exact hu.2 hf

/-- The kernel puts one of its pages into a pipe. -/
theorem SpaceOk.toPipe (S : SpaceOk m own) (hp : own p = .kernel) (i : ℕ) :
    SpaceOk m (Function.update own p (.pipe i)) ∧ Frame ∅ m own m (Function.update own p (.pipe i)) := by
  refine S.beside (S.heap.retag (by rw [hp]; exact ⟨nofun, nofun⟩) ⟨nofun, nofun⟩) (SameRest.refl m)
    (fun o ho => absurd ho id) (fun x hx => ?_) fun a ha => absurd rfl ha
  rw [update_ne hx, Function.update_self, hp]
  exact ⟨id, id, fun h => absurd h id, fun i => nofun⟩

/-- The kernel takes a page out of a pipe. -/
theorem SpaceOk.ofPipe {i : ℕ} (S : SpaceOk m own) (hp : own p = .pipe i) :
    SpaceOk m (Function.update own p .kernel) ∧ Frame {.pipe i} m own m (Function.update own p .kernel) := by
  refine S.beside (S.heap.retag (by rw [hp]; exact ⟨nofun, nofun⟩) ⟨nofun, nofun⟩) (SameRest.refl m)
    (fun o ho => ⟨i, ho⟩) (fun x hx => ?_) fun a ha => absurd rfl ha
  rw [update_ne hx, Function.update_self, hp]
  exact ⟨id, id, fun _ => rfl, fun i => nofun⟩

end pages

/-! ## Entries of last tables -/

/-- Pages turn over between the kernel and the page number `v` of `r`. -/
def Turn (own own' : ℕ → Owner) (r v : ℕ) : Prop :=
  ∀ p, own' p ≠ own p → (own p = .kernel ∨ own p = .data r v) ∧ (own' p = .kernel ∨ own' p = .data r v)

namespace Turn

variable {m : Memory} {own own' : ℕ → Owner} {r v p : ℕ}

theorem refl (own : ℕ → Owner) (r v : ℕ) : Turn own own r v := fun _ h => absurd rfl h

theorem one {o : Owner} (h : own p = .kernel ∨ own p = .data r v) (ho : o = .kernel ∨ o = .data r v) :
    Turn own (Function.update own p o) r v := by
  intro q hne
  rw [update_ne hne, Function.update_self]
  exact ⟨h, ho⟩

theorem retag (h : Turn own own' r v) : Retag own own' r v := by
  intro p hne
  obtain ⟨h1, h2⟩ := h p hne
  refine ⟨?_, ?_, ?_, ?_⟩
  · rcases h1 with h1 | h1 <;> rw [h1] <;> exact id
  · rcases h2 with h2 | h2 <;> rw [h2] <;> exact id
  · rcases h1 with h1 | h1 <;> rw [h1] <;> exact fun _ => nofun
  · rcases h1 with h1 | h1 <;> rw [h1]
    · exact fun _ _ => nofun
    · rintro r' v' ⟨⟩
      exact ⟨rfl, rfl⟩

theorem used (h : Turn own own' r v) (hne : own' p ≠ own p) : (own p).Used ∧ (own' p).Used := by
  obtain ⟨h1, h2⟩ := h p hne
  constructor
  · rcases h1 with h1 | h1 <;> rw [h1] <;> exact ⟨nofun, nofun⟩
  · rcases h2 with h2 | h2 <;> rw [h2] <;> exact ⟨nofun, nofun⟩

end Turn

/-- The allocator does not see what the pages in use are used for. -/
theorem HeapOwned.used {m : Memory} {own own' : ℕ → Owner} (H : HeapOwned m own)
    (h : ∀ p, own' p ≠ own p → (own p).Used ∧ (own' p).Used) : HeapOwned m own' := by
  obtain ⟨live, freed, hi, hfree, hlive⟩ := H
  refine ⟨live, freed, hi, fun p => ?_, fun p hp => ?_⟩
  · by_cases hne : own' p = own p
    · rw [hne]
      exact hfree p
    · obtain ⟨h1, h2⟩ := h p hne
      rw [← hfree p]
      exact iff_of_false h2.2 h1.2
  · by_cases hne : own' p = own p
    · exact hlive p (hne ▸ hp)
    · exact hlive p (h p hne).1

section leaf
variable {m : Memory} {own own' : ℕ → Owner} {r k t j e : ℕ}

/-- A write to an entry of a table changes that page only. -/
theorem writePte_mem {a : ℕ} (A : Aligned own) (ht : (own t).IsTable) (hj : j < 512) (ha : ¬ InPage t a) :
    (writePte (t + 8 * j) e m).mem a = m.mem a := by
  have := A t ht.used.1
  refine putLe_out ?_
  unfold InPage at ha
  omega

theorem HeapOwned.writeTable (H : HeapOwned m own) (ht : (own t).IsTable) (hj : j < 512) :
    HeapOwned (writePte (t + 8 * j) e m) own := by
  refine H.congr (fun f hf a ha => ?_) rfl rfl rfl
  refine writePte_mem H.aligned ht hj fun hta => ?_
  obtain rfl := inPage_unique (H.aligned f (by rw [hf]; exact nofun)) (H.aligned t ht.used.1) ha hta
  exact ht.used.2 hf

theorem writeTable_untouched (A : Aligned own) (ht : (own t).IsTable) (hj : j < 512) :
    Untouched ∅ m own (writePte (t + 8 * j) e m) :=
  untouched_of_page A ht.used.1 (fun h => absurd ht h.not_isTable) fun _ ha => writePte_mem A ht hj ha

/-- What a write to an entry of a last table leaves as it is. -/
theorem leaf_frame (H : HeapOwned m own) (T : TablesOk m own) (ht : own t = .tab r k) (hj : j < 512)
    (he : e < 2 ^ 64) (T' : TablesOk (writePte (t + 8 * j) e m) own') (hown : Turn own own' r (512 * k + j)) :
    Frame {.data r (512 * k + j)} m own (writePte (t + 8 * j) e m) own' := by
  have R := hown.retag
  refine ⟨fun x => ⟨fun h => ?_, fun h => ?_⟩, fun p hp hx => ?_, fun p i hp => ?_, fun {r' v a} hr hv _ ha => ?_,
    fun {r' v} hr hv hx => ?_, fun a ha => ?_⟩
  · exact (R.table' (by rw [h]; trivial)).symm.trans h
  · exact (R.table (by rw [h]; trivial)).trans h
  · by_contra hne
    rcases (hown p hne).1 with h | h
    · rw [h] at hp
      exact hp
    · exact hx h
  · by_contra hne
    rcases (hown p fun he => hne (he ▸ hp)).2 with h | h <;> rw [h] at hp <;> cases hp
  · have hvv : vpn (v * 4096) = v := vpn_mul (hv.trans (by norm_num))
    obtain ⟨s, hs, rfl⟩ := (T.getPte_iff hr (by rw [hvv]; exact hv)).1 ha
    exact T'.getPte_tab ((R.table (by rw [hs]; trivial)).trans hs) rfl
  · rw [entry_setLeaf T H.aligned ht hj he T' R hr hv, if_neg]
    · exact Like.refl _
    · rintro ⟨rfl, rfl⟩
      exact hx rfl
  · refine writePte_mem H.aligned (by rw [ht]; trivial) hj fun hta => ?_
    have h1 := (H.isPage (p := t) (by rw [ht]; exact nofun)).2.1
    have h2 := hta.1
    omega

end leaf

section entry
variable {m : Memory} {own own' : ℕ → Owner} {r v a e : ℕ}

/-- The address that `get_pte` gives lies in the last table of the place. -/
theorem TablesOk.slot (T : TablesOk m own) (hr : own r = .root) (hv : v < userPages)
    (ha : getPte (v * 4096) r m = some a) : ∃ t, own t = .tab r (v / 512) ∧ a = t + 8 * (v % 512) := by
  have hvv : vpn (v * 4096) = v := vpn_mul (hv.trans (by norm_num))
  obtain ⟨t, ht, rfl⟩ := (T.getPte_iff hr (by rw [hvv]; exact hv)).1 ha
  rw [hvv] at ht
  exact ⟨t, ht, by rw [hvv]⟩

theorem entry_slot (hv : v < userPages) (ha : getPte (v * 4096) r m = some a) : entry m r v = readPte m a := by
  have h := entry_eq ha
  rwa [vpn_mul (hv.trans (by norm_num))] at h

/-- The entries after a write to the entry of page number `v`. -/
structure Entered (m : Memory) (own : ℕ → Owner) (own' : ℕ → Owner) (r v a e : ℕ) : Prop where
  heap : HeapOwned (writePte a e m) own'
  tables : TablesOk (writePte a e m) own'
  frame : Frame {.data r v} m own (writePte a e m) own'
  untouched : Untouched ∅ m own (writePte a e m)
  entry : entry (writePte a e m) r v = e
  pte : getPte (v * 4096) r (writePte a e m) = some a

theorem SpaceOk.entered (S : SpaceOk m own) (hr : own r = .root) (hv : v < userPages)
    (ha : getPte (v * 4096) r m = some a) (he : e < 2 ^ 64) (hown : Turn own own' r v) (hleaf : LeafOk own' r v e) :
    Entered m own own' r v a e := by
  obtain ⟨t, ht, rfl⟩ := S.tables.slot hr hv ha
  obtain ⟨k, j, hj, rfl⟩ : ∃ k j, j < 512 ∧ v = 512 * k + j := ⟨v / 512, v % 512, Nat.mod_lt _ (by norm_num), by omega⟩
  rw [show (512 * k + j) / 512 = k by omega] at ht
  rw [show (512 * k + j) % 512 = j by omega]
  have htt : (own t).IsTable := by
    rw [ht]
    trivial
  have T' := S.tables.setLeaf S.heap.aligned ht hj he hown.retag hleaf
  refine ⟨(S.heap.writeTable htt hj).used fun p => hown.used, T', leaf_frame S.heap S.tables ht hj he T' hown,
    writeTable_untouched S.heap.aligned htt hj, ?_, ?_⟩
  · rw [entry_setLeaf S.tables S.heap.aligned ht hj he T' hown.retag hr hv, if_pos ⟨rfl, rfl⟩]
  · have hvv : vpn ((512 * k + j) * 4096) = 512 * k + j := vpn_mul (hv.trans (by norm_num))
    rw [T'.getPte_tab ((hown.retag.table htt).trans ht) (by omega), hvv, show (512 * k + j) % 512 = j by omega]

/-- **A write to the entry of a page number** that the list of active pages is not about. -/
theorem SpaceOk.setEntry (S : SpaceOk m own) (hr : own r = .root) (hv : v < userPages)
    (ha : getPte (v * 4096) r m = some a) (he : e < 2 ^ 64) (hown : Turn own own' r v) (hleaf : LeafOk own' r v e)
    (hunlisted : Unlisted m own r v) (hold : ¬ Shared (entry m r v)) (hnew : ¬ Shared e) (hswap : ¬ Swapped e) :
    SpaceOk (writePte a e m) own' ∧ Entered m own own' r v a e := by
  have E := S.entered hr hv ha he hown hleaf
  refine ⟨S.frame E.heap E.tables E.frame (writePte_rest _ _ _) (fun r' v' _ _ hx => ?_) fun i => nofun, E⟩
  obtain ⟨rfl, rfl⟩ : r' = r ∧ v' = v := by
    cases hx
    exact ⟨rfl, rfl⟩
  rw [E.entry]
  exact ⟨hunlisted, hold, hnew, hswap⟩

end entry

/-! ## map_page -/

section grow
variable {m m' : Memory} {own own' : ℕ → Owner} {r r₀ : ℕ}

theorem Grow.low (G : Grow r m own m' own') (H' : HeapOwned m' own') : ∀ a < freememKernel, m'.mem a = m.mem a := by
  intro a ha
  by_contra hne
  rcases G.mem a hne with ⟨p, hp, hpo⟩ | ⟨b, o, hpl, h1, h2⟩
  · have h3 := (H'.isPage (p := p) (G.new p hpo).2.used.1).2.1
    have h4 := hp.1
    omega
  · obtain ⟨p, j, rfl, -, hu, -⟩ := hpl.page
    have h3 := (H'.isPage hu.1).2.1
    omega

/-- New tables change nothing else. -/
theorem SpaceOk.grow (S : SpaceOk m own) (H' : HeapOwned m' own') (T' : TablesOk m' own') (G : Grow r m own m' own') :
    SpaceOk m' own' ∧ Frame ∅ m own m' own' ∧ Untouched ∅ m own m' := by
  have hnew (p : ℕ) {o : Owner} (ho : own' p = o) (hb : ¬ o.Below r) : own p = o := by
    by_contra hne
    have := (G.new p fun he => hne (he ▸ ho)).2
    rw [ho] at this
    exact hb this
  have F : Frame ∅ m own m' own' := by
    refine ⟨fun x => ⟨fun h => hnew x h id, fun h => ?_⟩, fun p hp _ => G.used p hp.used, fun p i h => hnew p h id,
      fun hr hv _ ha => ?_, fun hr hv _ => ?_, G.low H'⟩
    · exact (G.used x (by rw [h]; exact ⟨nofun, nofun⟩)).trans h
    · exact G.getPte S.tables T' hr (by rw [vpn_mul (hv.trans (by norm_num))]; exact hv) ha
    · rw [G.entry S.tables T' H'.aligned hr hv]
      exact Like.refl _
  refine ⟨S.frame H' T' F G.rest (fun _ _ _ _ hx => absurd hx id) fun _ => id, F, fun p hp _ a ha => ?_⟩
  have hnt := hp.not_isTable
  exact G.page_mem H'.aligned hp.used (fun h => hnt (by rw [h]; trivial)) (fun i h => hnt (by rw [h]; trivial)) ha

end grow

/-- What `map_page` has done: the page `q` is at page number `v` of `r`. -/
structure Mapped (m : Memory) (own : ℕ → Owner) (m' : Memory) (own' : ℕ → Owner) (r v q e : ℕ) : Prop where
  frame : Frame {.data r v} m own m' own'
  untouched : Untouched {.data r v} m own m'
  rest : SameRest m m'
  contents : ∀ a, InPage q a → m'.mem a = m.mem a
  entry : entry m' r v = e
  pte : ∃ a, getPte (v * 4096) r m' = some a
  curr : m'.kernMemCurr ≤ m.kernMemCurr + 2 * 4096

/-- The tables for page number `v` of `r` have been made where they were missing, other pages than `q` are used as
before, and everything that has been written lies in a table of `r`. -/
structure TablesMade (m : Memory) (own : ℕ → Owner) (m' : Memory) (own' : ℕ → Owner) (r v q : ℕ) : Prop where
  kept : ∀ p, p ≠ q → (own p).Used → own' p = own p
  changed : ∀ p, p ≠ q → own' p ≠ own p → (own' p).Below r
  booked : Booked m own m' own'
  writes : ∀ b, m'.mem b ≠ m.mem b → ∃ p, InPage p b ∧ (p = r ∨ (own' p).Below r)
  has : ∀ o : Owner, o.IsTable → (Has own' o ↔ Has own o ∨ o = .mid r (v / 2 ^ 18) ∨ o = .tab r (v / 512))
  cost : ∃ j k, Took (j + k) m m' ∧ Cost own (.mid r (v / 2 ^ 18)) j ∧ Cost own (.tab r (v / 512)) k

section map
variable {m : Memory} {own : ℕ → Owner} {r va q flags : ℕ}

/-- The flags of the pages of a program. -/
def userFlags : ℕ := pageRead ||| pageWrite ||| pageExec ||| pageUser

/-- `map_page` without regard to what becomes of the page, with the tables that it makes. -/
theorem mapPage_made (S : SpaceOk m own) (hr : own r = .root) (hv : vpn va < userPages) (hf : mapFlags flags < 1024)
    (hroom : m.kernMemCurr + 2 * 4096 ≤ 2 ^ 64) (o : Owner)
    (hq : own q = .kernel ∧ o = .data r (vpn va) ∧ getAttribute (mapFlags flags) pageShm = 0 ∨
      own q = o ∧ ∃ i, o = .shm i ∧ getAttribute (mapFlags flags) pageShm ≠ 0) :
    ∃ own', HeapOwned (mapPage va (kva2pa q) r flags m) own' ∧ TablesOk (mapPage va (kva2pa q) r flags m) own' ∧
      own' q = o ∧
      Mapped m own (mapPage va (kva2pa q) r flags m) own' r (vpn va) q (mkEntry q (mapFlags flags)) ∧
      TablesMade m own (mapPage va (kva2pa q) r flags m) own' r (vpn va) q := by
  have hu : (own q).Used := by
    rcases hq with ⟨h, -⟩ | ⟨h, i, hi, -⟩
    · rw [h]
      exact ⟨nofun, nofun⟩
    · rw [h, hi]
      exact ⟨nofun, nofun⟩
  have hqt : ¬ (own q).IsTable := by
    rcases hq with ⟨h, -⟩ | ⟨h, i, hi, -⟩
    · rw [h]
      exact id
    · rw [h, hi]
      exact id
  have hpage := S.heap.isPage hu.1
  obtain ⟨m', own1, t, H1, T1, G, ht, heq, hcurr, hB, own0, i, k, hT, M0, M1⟩ :=
    mapPage_spec S.heap S.tables hr hv hpage hf hroom
  obtain ⟨S1, F1, U1⟩ := S.grow H1 T1 G
  have hq1 : own1 q = own q := G.used q hu
  have hj : vpn va % 512 < 512 := Nat.mod_lt _ (by norm_num)
  have hsplit : 512 * (vpn va / 512) + vpn va % 512 = vpn va := by omega
  have he := mkEntry_lt hpage hf
  have hturn : Turn own1 (Function.update own1 q o) r (512 * (vpn va / 512) + vpn va % 512) := by
    rw [hsplit]
    rcases hq with ⟨h, ho, -⟩ | ⟨h, -⟩
    · exact Turn.one (Or.inl (hq1.trans h)) (Or.inr ho)
    · rw [← h, ← hq1, Function.update_eq_self]
      exact Turn.refl _ _ _
  have hleaf : LeafOk (Function.update own1 q o) r (512 * (vpn va / 512) + vpn va % 512) (mkEntry q (mapFlags flags)) := by
    rw [hsplit]
    refine ⟨fun _ hs => ?_, fun _ hs => ?_⟩
    · rw [target_mkEntry hpage hf, Function.update_self]
      rw [getAttribute_mkEntry (by decide) hf] at hs
      rcases hq with ⟨-, ho, -⟩ | ⟨-, i, -, hi⟩
      · exact ho
      · exact absurd hs hi
    · rw [target_mkEntry hpage hf, Function.update_self]
      rw [getAttribute_mkEntry (by decide) hf] at hs
      rcases hq with ⟨-, -, h0⟩ | ⟨-, i, hi, -⟩
      · exact absurd h0 hs
      · exact ⟨i, hi⟩
  have T2 := T1.setLeaf H1.aligned ht hj he hturn.retag hleaf
  have F2 := leaf_frame H1 T1 ht hj he T2 hturn
  have hr1 : own1 r = .root := (F1.root r).2 hr
  have htt : (own1 t).IsTable := by
    rw [ht]
    trivial
  have hentry := entry_setLeaf T1 H1.aligned ht hj he T2 hturn.retag hr1 hv
  rw [if_pos ⟨rfl, hsplit.symm⟩] at hentry
  have hpte : getPte (vpn va * 4096) r (writePte (t + 8 * (vpn va % 512)) (mkEntry q (mapFlags flags)) m') =
      some (t + 8 * (vpn va % 512)) := by
    rw [← getPte_vpn]
    exact T2.getPte_tab ((hturn.retag.table htt).trans ht) rfl
  have hout (p : ℕ) (hp : own1 p ≠ .unused) : Function.update own1 q o p ≠ .unused := by
    by_cases hpq : p = q
    · rw [hpq, Function.update_self]
      rcases hq with ⟨-, h, -⟩ | ⟨-, i, h, -⟩ <;> exact h ▸ nofun
    · rwa [Function.update_of_ne hpq]
  rw [hsplit] at F2
  rw [heq]
  refine ⟨Function.update own1 q o, (H1.writeTable htt hj).used fun p => hturn.used, T2, Function.update_self _ _ _,
    ⟨(F1.mono (Set.empty_subset _)).trans F2, (U1.mono (Set.empty_subset _)).trans (F1.mono (Set.empty_subset _))
      ((writeTable_untouched H1.aligned htt hj).mono (Set.empty_subset _)), G.rest.trans (writePte_rest _ _ _),
      fun a ha => ?_, hentry, ⟨_, hpte⟩, hcurr⟩, fun p hpq hp => ?_, fun p hpq hne => ?_, ⟨fun p hp => ?_, fun p hm h1 h2 => ?_⟩,
      fun b hb => ?_, fun x hx => ?_,
      i, k, ⟨hT.sum, hT.fresh, hT.curr, hT.log⟩, M0.cost, ?_⟩
  · have hta : ¬ InPage t a := fun hta => by
      obtain rfl := inPage_unique hpage.1 (H1.aligned t htt.used.1) ha hta
      rw [hq1] at htt
      exact hqt htt
    rw [writePte_mem H1.aligned htt hj hta]
    exact G.page_mem H1.aligned hu (fun h => hqt (by rw [h]; trivial)) (fun i h => hqt (by rw [h]; trivial)) ha
  · exact (Function.update_of_ne hpq _ _).trans (G.used p hp)
  · rw [Function.update_of_ne hpq] at hne ⊢
    exact (G.new p hne).2
  · exact hout p (hB.old p hp)
  · exact hout p (hB.fresh p hm h1 h2)
  · by_cases hbt : t + 8 * (vpn va % 512) ≤ b ∧ b < t + 8 * (vpn va % 512) + 8
    · exact ⟨t, ⟨by omega, by omega⟩, Or.inr (by rw [hturn.retag.table htt, ht]; rfl)⟩
    · rw [show (writePte (t + 8 * (vpn va % 512)) (mkEntry q (mapFlags flags)) m').mem b = m'.mem b from
        putLe_out (by omega)] at hb
      rcases G.mem b hb with ⟨p, hpb, hne⟩ | ⟨a, o', hpl, h1, h2⟩
      · have hbelow := (G.new p hne).2
        exact ⟨p, hpb, Or.inr (by rwa [hturn.retag.table hbelow.isTable])⟩
      · obtain ⟨p, j, rfl, hj', hup, ⟨-, rfl⟩ | ⟨i, hi⟩⟩ := hpl.page
        · exact ⟨p, ⟨by omega, by omega⟩, Or.inl rfl⟩
        · exact ⟨p, ⟨by omega, by omega⟩, Or.inr (by rw [hturn.retag.table (by rw [hi]; trivial), hi]; rfl)⟩
  · rw [← or_assoc, ← M0.has x hx.used, ← M1.has x hx.used]
    constructor
    · rintro ⟨p, rfl⟩
      exact ⟨p, (hturn.retag.table' hx).symm⟩
    · rintro ⟨p, rfl⟩
      exact ⟨p, hturn.retag.table hx⟩
  · have hhas := M0.has (.tab r (vpn va / 512)) ⟨nofun, nofun⟩
    rw [or_iff_left (a := Has own _) nofun] at hhas
    have hcost := M1.cost
    unfold Cost at hcost ⊢
    rwa [hhas] at hcost

/-- `map_page` without regard to what becomes of the page. -/
theorem mapPage_mapped (S : SpaceOk m own) (hr : own r = .root) (hv : vpn va < userPages) (hf : mapFlags flags < 1024)
    (hroom : m.kernMemCurr + 2 * 4096 ≤ 2 ^ 64) (o : Owner)
    (hq : own q = .kernel ∧ o = .data r (vpn va) ∧ getAttribute (mapFlags flags) pageShm = 0 ∨
      own q = o ∧ ∃ i, o = .shm i ∧ getAttribute (mapFlags flags) pageShm ≠ 0) :
    ∃ own', HeapOwned (mapPage va (kva2pa q) r flags m) own' ∧ TablesOk (mapPage va (kva2pa q) r flags m) own' ∧
      own' q = o ∧
      Mapped m own (mapPage va (kva2pa q) r flags m) own' r (vpn va) q (mkEntry q (mapFlags flags)) := by
  obtain ⟨own', H', T', ho, M, -⟩ := mapPage_made S hr hv hf hroom o hq
  exact ⟨own', H', T', ho, M⟩

/-- The entry that `map_page` writes is present. -/
theorem present_mapped : Present (mkEntry q (mapFlags flags)) := by
  rw [present_mkEntry, mapFlags, Nat.or_mod_two_eq_one, Nat.or_mod_two_eq_one, Nat.or_mod_two_eq_one]
  exact Or.inl (Or.inl (Or.inr rfl))

/-- A page number without a present entry is not in the list of active pages. -/
theorem unlisted_of_not_present {v : ℕ} (h : ¬ Present (entry m r v)) : Unlisted m own r v :=
  fun _ _ _ hl => h hl.present

/-- **map_page** of a page of the kernel at an address where no page is. -/
theorem SpaceOk.mapPage_made (S : SpaceOk m own) (hr : own r = .root) (hv : vpn va < userPages) (hq : own q = .kernel)
    (hf : mapFlags flags < 1024) (hs : getAttribute (mapFlags flags) pageShm = 0)
    (hentry : ¬ Present (entry m r (vpn va))) (hroom : m.kernMemCurr + 2 * 4096 ≤ 2 ^ 64) :
    ∃ own', SpaceOk (mapPage va (kva2pa q) r flags m) own' ∧ own' q = .data r (vpn va) ∧
      Mapped m own (mapPage va (kva2pa q) r flags m) own' r (vpn va) q (mkEntry q (mapFlags flags)) ∧
      TablesMade m own (mapPage va (kva2pa q) r flags m) own' r (vpn va) q := by
  obtain ⟨own', H', T', ho, M, W⟩ := Mm.mapPage_made S hr hv hf hroom _ (Or.inl ⟨hq, rfl, hs⟩)
  refine ⟨own', S.frame H' T' M.frame M.rest (fun r' v hr' hv' hx => ?_) (fun i => nofun), ho, M, W⟩
  obtain ⟨rfl, rfl⟩ : r' = r ∧ v = vpn va := by
    cases hx
    exact ⟨rfl, rfl⟩
  rw [M.entry]
  refine ⟨unlisted_of_not_present hentry, fun h => hentry h.1, fun h => ?_, fun h => ?_⟩
  · have h2 := h.2
    rw [getAttribute_mkEntry (by decide) hf] at h2
    exact h2 hs
  · exact h.1 present_mapped

end map

end RiscvKernel.Mm
