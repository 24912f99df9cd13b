import RiscvKernel.Sched.Exec
import RiscvKernel.Sched.Stacks

/-!
# Loading a program

`load_task_img` goes through the pages of the segment. Each round maps a page, reads the sectors with its part
of the file into a buffer at a fixed address, copies the part and clears the rest of the page. Three positions
advance together: the user address, the offset in the image, and what remains of the file.

The buffer `TEMP` lies in the memory that `allocPage` hands out. `loadTaskImg_iff` says that the segment is
reproduced, in pages that are not the buffer's, exactly when the pages that it takes are free below the buffer.
-/

namespace RiscvKernel.Sched

open Lib Mm

/-! ## Pages of a segment -/

/-- The numbers of the pages that meet the `n` bytes from `va` on. -/
def pagesAt (va n : ℕ) : Finset ℕ := (Finset.range n).image fun o => (va + o) / 4096

/-- How many pages it takes to map page numbers in an empty address space: the pages and the tables for them. -/
def pagesFor (V : Finset ℕ) : ℕ := V.card + ((V.image (· / 2 ^ 18)).card + (V.image (· / 512)).card)

/-- The number of pages that can be handed out before the buffer is. -/
def pagesLeft (m : Memory) : ℤ := ((temp : ℤ) - m.kernMemCurr) / 4096 + m.freePageListCount

/-- The tables of `r` are those for the page numbers `V`. -/
structure TablesFor (own : ℕ → Owner) (r : ℕ) (V : Finset ℕ) : Prop where
  mid : ∀ i, Has own (.mid r i) ↔ i ∈ V.image (· / 2 ^ 18)
  tab : ∀ k, Has own (.tab r k) ↔ k ∈ V.image (· / 512)

section pages
variable {va n v o j k r : ℕ} {V : Finset ℕ} {own own' : ℕ → Owner}

theorem mem_pagesAt : v ∈ pagesAt va n ↔ ∃ o < n, (va + o) / 4096 = v := by
  simp [pagesAt]

/-- The first page, and the pages after it. -/
theorem pagesAt_eq (hn : n ≠ 0) :
    pagesAt va n = insert (va / 4096) (pagesAt (va + (4096 - va % 4096)) (n - (4096 - va % 4096))) := by
  ext v
  rw [Finset.mem_insert, mem_pagesAt, mem_pagesAt]
  constructor
  · rintro ⟨o, ho, rfl⟩
    by_cases h : o < 4096 - va % 4096
    · exact Or.inl (by omega)
    · exact Or.inr ⟨o - (4096 - va % 4096), by omega, by congr 1; omega⟩
  · rintro (rfl | ⟨o, ho, rfl⟩)
    · exact ⟨0, by omega, rfl⟩
    · exact ⟨4096 - va % 4096 + o, by omega, by congr 1; omega⟩

theorem not_mem_pagesAt : va / 4096 ∉ pagesAt (va + (4096 - va % 4096)) n := by
  rw [mem_pagesAt]
  rintro ⟨o, -, h⟩
  omega

theorem pagesFor_mono {W : Finset ℕ} (h : V ⊆ W) : pagesFor V ≤ pagesFor W :=
  Nat.add_le_add (Finset.card_le_card h)
    (Nat.add_le_add (Finset.card_le_card (Finset.image_subset_image h)) (Finset.card_le_card (Finset.image_subset_image h)))

theorem card_insert_cost {α : Type} [DecidableEq α] {s : Finset α} {a : α} {o : Owner} (hs : Has own o ↔ a ∈ s)
    (hk : Cost own o k) : (insert a s).card = s.card + k := by
  rcases hk with ⟨rfl, h⟩ | ⟨rfl, h⟩
  · rw [Finset.insert_eq_of_mem (hs.1 h), Nat.add_zero]
  · exact Finset.card_insert_of_notMem fun ha => h (hs.2 ha)

/-- What another page takes. -/
theorem TablesFor.cost (h : TablesFor own r V) (hv : v ∉ V) (hj : Cost own (.mid r (v / 2 ^ 18)) j)
    (hk : Cost own (.tab r (v / 512)) k) : pagesFor (insert v V) = pagesFor V + (1 + (j + k)) := by
  unfold pagesFor
  rw [Finset.card_insert_of_notMem hv, Finset.image_insert, Finset.image_insert, card_insert_cost (h.mid _) hj,
    card_insert_cost (h.tab _) hk]
  omega

theorem TablesFor.insert (h : TablesFor own r V)
    (hhas : ∀ o : Owner, o.IsTable → (Has own' o ↔ Has own o ∨ o = .mid r (v / 2 ^ 18) ∨ o = .tab r (v / 512))) :
    TablesFor own' r (insert v V) := by
  refine ⟨fun i => ?_, fun k => ?_⟩
  · rw [hhas (.mid r i) trivial, h.mid, Finset.image_insert, Finset.mem_insert, or_comm]
    simp
  · rw [hhas (.tab r k) trivial, h.tab, Finset.image_insert, Finset.mem_insert, or_comm]
    simp

end pages

/-! ## One round -/

/-- The room in the page of the address. -/
def pageRemain (va : ℕ) : ℕ := pageSize - va % pageSize

/-- What is copied in a round. -/
def copyLen (va f : ℕ) : ℕ := if f < pageRemain va then f else pageRemain va

/-- Read `len` bytes of the image to `dst`, by way of the buffer. -/
def readPart (dst off len : ℕ) (m : Memory) : Memory :=
  if 0 < len then
    let startSec := off / sectorSize
    let endSec := (off + len - 1) / sectorSize
    let numSecs := endSec - startSec + 1
    let m := { m with mem := blit m.mem temp m.sd (startSec * sectorSize) (numSecs * sectorSize) }
    { m with mem := blit m.mem dst m.mem (temp + off % sectorSize) len }
  else m

/-- Clear the rest of a page. -/
def clearRest (dst len remain : ℕ) (m : Memory) : Memory :=
  if len < remain then { m with mem := fill m.mem (dst + len) 0#8 (remain - len) } else m

/-- What a round of the loop does after the page has been mapped. -/
def fillPage (pageKva va off f : ℕ) (m : Memory) : Memory :=
  clearRest (pageKva + va % pageSize) (copyLen va f) (pageRemain va)
    (readPart (pageKva + va % pageSize) off (copyLen va f) m)

/-- The address lies in the buffer: a part of the file in a page meets at most nine sectors. -/
def InTemp (b : ℕ) : Prop := temp ≤ b ∧ b < temp + 9 * sectorSize

section round
variable {r fuel va off f n q b x dst len remain : ℕ} {m : Memory}

theorem pageRemain_eq (va : ℕ) : pageRemain va = 4096 - va % 4096 := rfl

theorem copyLen_eq (va f : ℕ) : copyLen va f = min f (4096 - va % 4096) := by
  unfold copyLen
  rw [pageRemain_eq]
  split <;> omega

theorem loadPages_eq : loadPages r (fuel + 1) va off f n m = if n = 0 then m else
    match allocPageHelper va r m with
    | (q, m) => loadPages r fuel (va + pageRemain va) (off + copyLen va f) (f - copyLen va f) (n - pageRemain va)
        (fillPage q va off f m) := rfl

theorem loadPages_zero : loadPages r fuel va off f 0 m = m := by
  cases fuel with
  | zero => rfl
  | succ fuel => rw [loadPages_eq, if_pos rfl]

theorem loadPages_succ (hn : n ≠ 0) : loadPages r (fuel + 1) va off f n m =
    loadPages r fuel (va + pageRemain va) (off + copyLen va f) (f - copyLen va f) (n - pageRemain va)
      (fillPage (allocPageHelper va r m).1 va off f (allocPageHelper va r m).2) := by
  refine loadPages_eq.trans ((if_neg hn).trans ?_)
  generalize allocPageHelper va r m = x
  obtain ⟨q, m1⟩ := x
  rfl

theorem readPart_out (hlen : len ≤ 4096) (hd : b < dst ∨ dst + len ≤ b) (hb : ¬ InTemp b) :
    (readPart dst off len m).mem b = m.mem b := by
  have hs : sectorSize = 512 := rfl
  unfold InTemp at hb
  unfold readPart
  split
  · refine (blit_out hd).trans (blit_out ?_)
    rw [hs] at hb ⊢
    omega
  · rfl

theorem readPart_in (hx : x < len) : (readPart dst off len m).mem (dst + x) = m.sd (off + x) := by
  have hs : sectorSize = 512 := rfl
  unfold readPart
  rw [if_pos (by omega)]
  refine (blit_in hx).trans ((blit_in_of_le (by omega) ?_).trans (congrArg m.sd ?_))
  · rw [hs]
    omega
  · rw [hs]
    omega

theorem clearRest_out (hb : b < dst + len ∨ dst + remain ≤ b) : (clearRest dst len remain m).mem b = m.mem b := by
  unfold clearRest
  split
  · exact fill_out (by omega)
  · rfl

theorem clearRest_in (h1 : len ≤ x) (h2 : x < remain) : (clearRest dst len remain m).mem (dst + x) = 0#8 := by
  unfold clearRest
  rw [if_pos (by omega)]
  exact fill_in (by omega) (by omega)

/-- Only the page and the buffer are written. -/
theorem fillPage_out (hq : ¬ InPage q b) (hb : ¬ InTemp b) : (fillPage q va off f m).mem b = m.mem b := by
  have hp : pageSize = 4096 := rfl
  have hlt : va % 4096 < 4096 := Nat.mod_lt _ (by norm_num)
  unfold InPage at hq
  unfold fillPage
  rw [hp, pageRemain_eq, copyLen_eq]
  exact (clearRest_out (by omega)).trans (readPart_out (by omega) (by omega) hb)

/-- **The page** holds its part of the file, and zeros after it. -/
theorem fillPage_in (hx : va % 4096 + x < 4096) : (fillPage q va off f m).mem (q + (va % 4096 + x)) =
    if x < f then m.sd (off + x) else 0#8 := by
  have hp : pageSize = 4096 := rfl
  unfold fillPage
  rw [hp, pageRemain_eq, copyLen_eq, ← Nat.add_assoc]
  by_cases hf : x < f
  · rw [if_pos hf, clearRest_out (by omega)]
    exact readPart_in (by omega)
  · rw [if_neg hf]
    exact clearRest_in (by omega) (by omega)

theorem fillPage_rest (q va off f : ℕ) (m : Memory) : SameRest m (fillPage q va off f m) := by
  unfold fillPage clearRest readPart
  split <;> split <;> exact ⟨rfl, rfl, rfl, rfl, rfl, rfl, rfl⟩

/-- The allocator is the same. -/
theorem fillPage_alloc (q va off f : ℕ) (m : Memory) : (fillPage q va off f m).freePageList = m.freePageList ∧
    (fillPage q va off f m).freePageListCount = m.freePageListCount ∧
    (fillPage q va off f m).kernMemCurr = m.kernMemCurr ∧ (fillPage q va off f m).pageLog = m.pageLog := by
  unfold fillPage clearRest readPart
  split <;> split <;> exact ⟨rfl, rfl, rfl, rfl⟩

end round

/-! ## The buffer -/

section buffer
variable {m m' : Memory} {own own' : ℕ → Owner} {r v q p : ℕ}

/-- The pages that have been handed out, and those in the list, are below the fresh memory. -/
theorem below_curr (H : HeapOwned m own) (h : own p ≠ .unused) : p + 4096 ≤ m.kernMemCurr := by
  obtain ⟨live, freed, hi, hfree, hlive⟩ := H
  have hmem : p ∈ live ++ freed := by
    by_cases hf : own p = .free
    · exact List.mem_append_right _ ((hfree p).1 hf)
    · exact List.mem_append_left _ (hlive p ⟨h, hf⟩)
  exact (hi.range p hmem).2.2

/-- An address in the buffer is in no page that has been handed out. -/
theorem unused_of_inTemp (H : HeapOwned m own) (htemp : m.kernMemCurr ≤ temp) {b : ℕ} (hb : InTemp b) (hp : InPage p b) :
    own p = .unused := by
  by_contra h
  have := below_curr H h
  unfold InTemp at hb
  unfold InPage at hp
  omega

theorem le_page {t a : ℕ} (ht : t % 4096 = 0) (ha : t ≤ a) : t ≤ a / 4096 * 4096 := by omega

/-- A round fills the new page when the buffer is not in use. -/
theorem fillPage_provided (va off f : ℕ) (P : Provided m own m' own' r v q) (hr : own r = .root) (hv : v < userPages)
    (htemp : m'.kernMemCurr ≤ temp) : Provided m own (fillPage q va off f m') own' r v q := by
  have hused : (own' q).Used := by
    rw [P.owner]
    exact ⟨nofun, nofun⟩
  have H := P.space.heap
  have hpage := H.isPage hused.1
  obtain ⟨hlist, hcount, hcurr, -⟩ := fillPage_alloc q va off f m'
  have hout {p a : ℕ} (hu : own' p ≠ .unused) (hpq : p ≠ q) (ha : InPage p a) :
      (fillPage q va off f m').mem a = m'.mem a := by
    refine fillPage_out (fun hqa => hpq ?_) fun hb => hu (unused_of_inTemp H htemp hb ha)
    exact inPage_unique (H.aligned p hu) hpage.1 ha hqa
  have hne {p : ℕ} (hp : own' p ≠ .data r v) : p ≠ q := by
    rintro rfl
    exact hp P.owner
  have hcongr := H.congr (fun p hp a ha => hout (by rw [hp]; exact nofun) (hne (by rw [hp]; exact nofun)) ha)
    hlist hcount hcurr
  obtain ⟨S2, F2⟩ := P.space.beside (X := ∅) hcongr (fillPage_rest q va off f m') (fun o ho => absurd ho id)
    (fun p hp => absurd rfl hp) fun a ha => by
      by_cases hqa : InPage q a
      · exact ⟨q, hqa, hpage, by rw [P.owner]; exact id⟩
      · have hb : InTemp a := by
          by_contra hb
          exact ha (fillPage_out hqa hb)
        have h1 : temp % 4096 = 0 := by decide
        have h2 : freememKernel ≤ temp := by decide
        have h3 : temp + 2 * 4096 ≤ 2 ^ 64 := by decide
        have h4 : sectorSize = 512 := rfl
        unfold InTemp at hb
        rw [h4] at hb
        have hin : InPage (a / 4096 * 4096) a := ⟨by omega, by omega⟩
        have hap : IsPage (a / 4096 * 4096) := ⟨by omega, h2.trans (le_page h1 hb.1), by omega⟩
        exact ⟨_, hin, hap, by rw [unused_of_inTemp H htemp (by unfold InTemp; rw [h4]; exact hb) hin]; exact id⟩
  have hlike := F2.entry ((P.frame.root r).2 hr) hv id
  have U2 : Untouched {.data r v} m' own' (fillPage q va off f m') := fun p hp hx a ha =>
    hout hp.used.1 (hne fun h => hx h) ha
  exact ⟨S2, P.frame.trans (F2.mono (Set.empty_subset _)), P.untouched.trans P.frame U2, P.owner,
    hlike.present.2 P.present, hlike.target.trans P.target, (fillPage_rest q va off f m').sd.trans P.sd,
    (fillPage_rest q va off f m').swapStartSec.trans P.start, hcurr ▸ P.curr⟩

end buffer

/-! ## The loop -/

/-- The pages of `r` with the numbers in `V`. -/
def segmentPages (r : ℕ) (V : Finset ℕ) : Set Owner := { o | ∃ v ∈ V, o = .data r v }

/-- What the loop has done: `n` bytes from `va` on are mapped, with `f` bytes of the image and zeros after them, in pages
that were not in use; nothing is written beside them, the tables of the address space and the buffer. -/
structure Loaded (m : Memory) (own : ℕ → Owner) (m' : Memory) (own' : ℕ → Owner) (r va off f n : ℕ) : Prop where
  space : SpaceOk m' own'
  frame : Frame (segmentPages r (pagesAt va n)) m own m' own'
  untouched : Untouched (segmentPages r (pagesAt va n)) m own m'
  sd : m'.sd = m.sd
  bytes : ∀ o < n, userByte m' r (va + o) = some (if o < f then m.sd (off + o) else 0#8)
  mapped : ∀ v ∈ pagesAt va n, ∃ q, own' q = .data r v ∧ ¬ (own q).Used ∧ Present (entry m' r v) ∧
    target (entry m' r v) = q
  kept : ∀ p, (own p).Used → own' p = own p
  writes : ∀ b, m'.mem b ≠ m.mem b → (∃ v ∈ pagesAt va n, ∃ q, own' q = .data r v ∧ InPage q b) ∨
    (∃ p, InPage p b ∧ (p = r ∨ (own' p).Below r)) ∨ InTemp b

/-- The buffer has been handed out. -/
def TempTaken (m m' : Memory) : Prop := ∃ evs, m'.pageLog = m.pageLog ++ evs ∧ .alloc temp ∈ evs

section loop
variable {m m1 m2 m' : Memory} {own own1 own' : ℕ → Owner} {r q va off f n j k K fuel : ℕ} {V : Finset ℕ}

theorem Loaded.refl (S : SpaceOk m own) : Loaded m own m own r va off f 0 :=
  ⟨S, Frame.refl _ _ _, Untouched.refl _ _ _, rfl, fun _ ho => absurd ho (Nat.not_lt_zero _),
    fun v hv => by simp [pagesAt] at hv, fun _ _ => rfl, fun _ h => absurd rfl h⟩

/-- Pages that take the allocator beyond the buffer take the buffer. -/
theorem took_temp (h : Took k m m') (hm : m.kernMemCurr ≤ temp) (hm' : temp < m'.kernMemCurr) :
    TempTaken m m' ∧ pagesLeft m < k := by
  obtain ⟨evs, he, hin, -⟩ := h.log
  have htemp : temp % 4096 = 0 := by decide
  refine ⟨⟨evs, he, hin temp hm hm' htemp⟩, ?_⟩
  have h1 := h.sum
  have h2 := h.fresh
  unfold pagesLeft
  omega

/-- Pages that leave the buffer alone. -/
theorem took_left (h : Took k m m') : pagesLeft m' = pagesLeft m - k := by
  have h1 := h.sum
  unfold pagesLeft
  omega

/-- The first page, and then the others. -/
theorem Loaded.cons (hn : n ≠ 0) (hr : own r = .root) (huser : va + n ≤ 2 ^ 38)
    (P : Provided m own (fillPage q va off f m1) own1 r (va / 4096) q) (M : PageMade m own m1 own1 r (va / 4096) q)
    (L : Loaded (fillPage q va off f m1) own1 m' own' r (va + pageRemain va) (off + copyLen va f) (f - copyLen va f)
      (n - pageRemain va)) : Loaded m own m' own' r va off f n := by
  have hpages : pagesAt va n = insert (va / 4096) (pagesAt (va + pageRemain va) (n - pageRemain va)) := pagesAt_eq hn
  have hnot : va / 4096 ∉ pagesAt (va + pageRemain va) (n - pageRemain va) := not_mem_pagesAt
  have hX : Owner.data r (va / 4096) ∉ segmentPages r (pagesAt (va + pageRemain va) (n - pageRemain va)) := by
    rintro ⟨v, hv, h⟩
    cases h
    exact hnot hv
  have hsub : segmentPages r (pagesAt (va + pageRemain va) (n - pageRemain va)) ⊆ segmentPages r (pagesAt va n) := by
    rintro o ⟨v, hv, rfl⟩
    exact ⟨v, by rw [hpages]; exact Finset.mem_insert_of_mem hv, rfl⟩
  have hone : {Owner.data r (va / 4096)} ⊆ segmentPages r (pagesAt va n) := by
    rintro o rfl
    exact ⟨_, by rw [hpages]; exact Finset.mem_insert_self _ _, rfl⟩
  have hheld : (own1 q).Held := by
    rw [P.owner]
    trivial
  have hq : own' q = .data r (va / 4096) := (L.frame.owner q hheld (by rw [P.owner]; exact hX)).trans P.owner
  have hr1 : own1 r = .root := (P.frame.root r).2 hr
  have hv : va / 4096 < userPages := by
    unfold userPages
    omega
  have hlike := L.frame.entry hr1 hv hX
  have hpresent := hlike.present.2 P.present
  have htarget := hlike.target.trans P.target
  have hsd : (fillPage q va off f m1).sd = m.sd := P.sd
  refine ⟨L.space, (P.frame.mono hone).trans (L.frame.mono hsub),
    (P.untouched.mono hone).trans (P.frame.mono hone) (L.untouched.mono hsub), L.sd.trans hsd, fun o ho => ?_,
    fun v hv => ?_, fun p hp => ?_, fun b hb => ?_⟩
  · by_cases hin : va % 4096 + o < 4096
    · -- a byte of the first page
      have hvpn : vpn (va + o) = va / 4096 := by
        unfold vpn
        omega
      have hmod : (va + o) % 4096 = va % 4096 + o := by omega
      have hbyte : userByte m' r (va + o) = _ := userByte_of_present (by rw [hvpn]; exact hpresent)
      rw [hbyte, hvpn, htarget, hmod, L.untouched q hheld (by rw [P.owner]; exact hX) _ ⟨by omega, by omega⟩,
        fillPage_in hin, (fillPage_rest q va off f m1).sd.symm, hsd]
    · have hle : pageRemain va ≤ o := by
        rw [pageRemain_eq]
        omega
      have hbyte := L.bytes (o - pageRemain va) (by omega)
      rw [show va + pageRemain va + (o - pageRemain va) = va + o by omega, hsd] at hbyte
      rw [hbyte]
      have hc := copyLen_eq va f
      rw [pageRemain_eq] at *
      by_cases hf : o < f
      · rw [if_pos hf, if_pos (by omega), show off + copyLen va f + (o - (4096 - va % 4096)) = off + o by omega]
      · rw [if_neg hf, if_neg (by omega)]
  · rw [hpages, Finset.mem_insert] at hv
    rcases hv with rfl | hv
    · exact ⟨q, hq, M.new, hpresent, htarget⟩
    · obtain ⟨x, h1, h2, h3⟩ := L.mapped v hv
      exact ⟨x, h1, fun hu => h2 (by rw [M.kept x hu]; exact hu), h3⟩
  · have h1 := M.kept p hp
    rw [← h1] at hp ⊢
    exact L.kept p hp
  · by_cases hb' : m'.mem b = (fillPage q va off f m1).mem b
    · by_cases hbq : InPage q b
      · exact Or.inl ⟨_, by rw [hpages]; exact Finset.mem_insert_self _ _, q, hq, hbq⟩
      · by_cases hbt : InTemp b
        · exact Or.inr (Or.inr hbt)
        · rw [hb', fillPage_out hbq hbt] at hb
          obtain ⟨p, hpb, hp⟩ := (M.writes b hb).resolve_left hbq
          refine Or.inr (Or.inl ⟨p, hpb, hp.imp id fun h => ?_⟩)
          rw [L.kept p h.used]
          exact h
    · rcases L.writes b hb' with ⟨v, hv, h⟩ | h
      · exact Or.inl ⟨v, by rw [hpages]; exact Finset.mem_insert_of_mem hv, h⟩
      · exact Or.inr h

/-! ### The log -/

theorem allocPage_logged (k : ℕ) (m : Memory) : m.pageLog <+: (allocPage k m).2.pageLog := by
  unfold allocPage
  split <;> exact ⟨_, rfl⟩

theorem ensureTable_logged (a : ℕ) (m : Memory) : m.pageLog <+: (ensureTable a m).pageLog := by
  unfold ensureTable
  split
  · exact allocPage_logged 1 m
  · exact List.prefix_rfl

theorem writePte_pageLog (a e : ℕ) (m : Memory) : (writePte a e m).pageLog = m.pageLog := rfl

theorem mapPage_logged (va pa r flags : ℕ) (m : Memory) : m.pageLog <+: (mapPage va pa r flags m).pageLog := by
  unfold mapPage
  dsimp only
  rw [writePte_pageLog, writePte_pageLog]
  exact (ensureTable_logged _ m).trans (ensureTable_logged _ _)

theorem allocPageHelper_logged (va r : ℕ) (m : Memory) : m.pageLog <+: (allocPageHelper va r m).2.pageLog := by
  rw [allocPageHelper_eq]
  exact (allocPage_logged 1 m).trans (mapPage_logged _ _ _ _ (clearPage _ _))

theorem loadPages_logged : m.pageLog <+: (loadPages r fuel va off f n m).pageLog := by
  induction fuel generalizing va off f n m with
  | zero => exact List.prefix_rfl
  | succ fuel ih =>
    by_cases hn : n = 0
    · subst hn
      rw [loadPages_zero]
    · rw [loadPages_succ hn]
      refine (allocPageHelper_logged va r m).trans (List.IsPrefix.trans ?_ ih)
      rw [(fillPage_alloc _ _ _ _ _).2.2.2]

theorem TempTaken.mono (h : TempTaken m m1) (hp : m1.pageLog <+: m'.pageLog) : TempTaken m m' := by
  obtain ⟨evs, he, hin⟩ := h
  obtain ⟨evs', he'⟩ := hp
  exact ⟨evs ++ evs', by rw [← he', he, List.append_assoc], List.mem_append_left _ hin⟩

theorem TempTaken.head (h : TempTaken m1 m') (hp : m.pageLog <+: m1.pageLog) : TempTaken m m' := by
  obtain ⟨evs, he, hin⟩ := h
  obtain ⟨evs', he'⟩ := hp
  exact ⟨evs' ++ evs, by rw [he, ← he', List.append_assoc], List.mem_append_right _ hin⟩

/-! ### All rounds -/

/-- The loop ends: more fuel makes no difference. -/
theorem loadPages_fuel {fuel' : ℕ} (h : n ≤ fuel) (h' : n ≤ fuel') :
    loadPages r fuel' va off f n m = loadPages r fuel va off f n m := by
  induction fuel generalizing fuel' va off f n m with
  | zero =>
    obtain rfl : n = 0 := by omega
    rw [loadPages_zero, loadPages_zero]
  | succ fuel ih =>
    by_cases hn : n = 0
    · subst hn
      rw [loadPages_zero, loadPages_zero]
    · obtain ⟨fuel', rfl⟩ : ∃ k, fuel' = k + 1 := ⟨fuel' - 1, by omega⟩
      have hlt : va % 4096 < 4096 := Nat.mod_lt _ (by norm_num)
      have hrem := pageRemain_eq va
      rw [loadPages_succ hn, loadPages_succ hn]
      exact ih (by omega) (by omega)

/-- **The loop** loads the segment in pages below the buffer, or the buffer is handed out and there were not enough
pages. By induction on the rounds: the tables that there are stand for the pages that have been mapped. -/
theorem loadPages_cases (off f : ℕ) (hfuel : n ≤ fuel) (S : SpaceOk m own) (hr : own r = .root) (htab : TablesFor own r V)
    (hempty : ∀ v ∈ pagesAt va n, v ∉ V ∧ ¬ Present (entry m r v)) (huser : va + n ≤ 2 ^ 38)
    (htemp : m.kernMemCurr ≤ temp) :
    (∃ own' k, Loaded m own (loadPages r fuel va off f n m) own' r va off f n ∧
      Took k m (loadPages r fuel va off f n m) ∧ pagesFor (V ∪ pagesAt va n) = pagesFor V + k ∧
      (loadPages r fuel va off f n m).kernMemCurr ≤ temp) ∨
    TempTaken m (loadPages r fuel va off f n m) ∧
      pagesLeft m < (pagesFor (V ∪ pagesAt va n) : ℤ) - pagesFor V := by
  induction fuel generalizing va off f n m own V with
  | zero =>
    obtain rfl : n = 0 := by omega
    rw [loadPages_zero]
    exact Or.inl ⟨own, 0, Loaded.refl S, Took.zero rfl rfl rfl, by simp [pagesAt], htemp⟩
  | succ fuel ih =>
    by_cases hn : n = 0
    · subst hn
      rw [loadPages_zero]
      exact Or.inl ⟨own, 0, Loaded.refl S, Took.zero rfl rfl rfl, by simp [pagesAt], htemp⟩
    have hlt : va % 4096 < 4096 := Nat.mod_lt _ (by norm_num)
    have hrem := pageRemain_eq va
    have hpages : pagesAt va n = insert (va / 4096) (pagesAt (va + pageRemain va) (n - pageRemain va)) := pagesAt_eq hn
    have hnot : va / 4096 ∉ pagesAt (va + pageRemain va) (n - pageRemain va) := not_mem_pagesAt
    have hvpn : vpn va = va / 4096 := by
      unfold vpn
      omega
    have hv : va / 4096 < userPages := by
      unfold userPages
      omega
    obtain ⟨hvV, hve⟩ := hempty (va / 4096) (by rw [hpages]; exact Finset.mem_insert_self _ _)
    have hroom : m.kernMemCurr + 3 * 4096 ≤ 2 ^ 64 := by
      have h3 : temp + 3 * 4096 ≤ 2 ^ 64 := by decide
      omega
    obtain ⟨own1, P, M⟩ := allocPageHelper_made S hr (by rw [hvpn]; exact hv) (by rw [hvpn]; exact hve) hroom
    rw [loadPages_succ hn]
    rw [hvpn] at P M
    have hlogged := allocPageHelper_logged va r m
    generalize (allocPageHelper va r m).1 = q at *
    generalize (allocPageHelper va r m).2 = m1 at *
    obtain ⟨i, k, hT, hi, hk⟩ := M.cost
    have hcost := htab.cost hvV hi hk
    have hunion : V ∪ pagesAt va n = insert (va / 4096) V ∪ pagesAt (va + pageRemain va) (n - pageRemain va) := by
      rw [hpages, Finset.union_insert, Finset.insert_union]
    obtain ⟨-, hcount, hcurr, hlog⟩ := fillPage_alloc q va off f m1
    have hlogged2 : m1.pageLog <+: (fillPage q va off f m1).pageLog := by rw [hlog]
    rw [hunion]
    by_cases hle : m1.kernMemCurr ≤ temp
    · have P2 := fillPage_provided va off f P hr hv hle
      have hT2 : Took (1 + (i + k)) m (fillPage q va off f m1) :=
        ⟨by rw [hcount, hcurr]; exact hT.sum, by rw [hcount, hcurr]; exact hT.fresh, by rw [hcurr]; exact hT.curr,
          by rw [hcurr, hlog]; exact hT.log⟩
      have hempty2 : ∀ v ∈ pagesAt (va + pageRemain va) (n - pageRemain va),
          v ∉ insert (va / 4096) V ∧ ¬ Present (entry (fillPage q va off f m1) r v) := fun v hvm => by
        obtain ⟨h1, h2⟩ := hempty v (by rw [hpages]; exact Finset.mem_insert_of_mem hvm)
        have hne : v ≠ va / 4096 := by
          rintro rfl
          exact hnot hvm
        have hvu : v < userPages := by
          obtain ⟨o, ho, rfl⟩ := mem_pagesAt.1 hvm
          unfold userPages
          omega
        have hlike := P2.frame.entry hr hvu fun h => hne (by cases h; rfl)
        exact ⟨by rw [Finset.mem_insert, not_or]; exact ⟨hne, h1⟩, fun h => h2 (hlike.present.1 h)⟩
      rcases ih (off + copyLen va f) (f - copyLen va f) (by omega) P2.space ((P2.frame.root r).2 hr) (htab.insert M.has) hempty2 (by omega) (by rw [hcurr]; exact hle) with
        ⟨own', K, L, hK, hsum, hend⟩ | ⟨htaken, hleft⟩
      · refine Or.inl ⟨own', 1 + (i + k) + K, Loaded.cons hn hr huser P2 M L, hT2.trans hK L.space.heap.count_nonneg,
          ?_, hend⟩
        omega
      · refine Or.inr ⟨htaken.head (hlogged.trans hlogged2), ?_⟩
        have := took_left hT2
        omega
    · obtain ⟨h1, h2⟩ := took_temp hT htemp (by omega)
      refine Or.inr ⟨h1.mono (hlogged2.trans loadPages_logged), ?_⟩
      have hsub : insert (va / 4096) V ⊆ insert (va / 4096) V ∪ pagesAt (va + pageRemain va) (n - pageRemain va) :=
        Finset.subset_union_left
      have hmono := pagesFor_mono hsub
      omega

end loop

/-! ## load_task_img -/

/-- The first program of the name is number `i`. -/
structure IsTask (m : Memory) (name : CStr) (i : ℕ) : Prop where
  lt : i < taskMaxnum
  nonempty : name ≠ []
  named : (m.tasks i).name = name
  first : ∀ j < i, (m.tasks j).name ≠ name

/-- No page that has been handed out meets the buffer. -/
def BesideTemp (m m' : Memory) : Prop :=
  ∃ evs, m'.pageLog = m.pageLog ++ evs ∧ ∀ p, .alloc p ∈ evs → p + 4096 ≤ temp ∨ temp + 9 * sectorSize ≤ p

/-- The loader has mapped the segment of the program, page by page and no page besides, and has ended. -/
structure Reproduced (m : Memory) (own : ℕ → Owner) (m' : Memory) (r : ℕ) (t : TaskInfo) : Prop where
  loaded : ∃ own', Loaded m own m' own' r t.vaddr t.imageOffset t.filesz t.memsz
  mapped : ∀ v < userPages, Present (entry m' r v) ↔ v ∈ pagesAt t.vaddr t.memsz
  once : Took (pagesFor (pagesAt t.vaddr t.memsz)) m m'
  ends : ∀ fuel ≥ t.memsz, loadPages r fuel t.vaddr t.imageOffset t.filesz t.memsz m = m'

/-- `load_task_img` loads the program of the name, and does nothing when there is none. -/
def LoadsRight (m : Memory) (own : ℕ → Owner) (r : ℕ) (name : CStr) : Prop :=
  (NotATask m name → loadTaskImg name r m = (0, m)) ∧
    ∀ i, IsTask m name i → (loadTaskImg name r m).1 = (m.tasks i).vaddr ∧
      Reproduced m own (loadTaskImg name r m).2 r (m.tasks i)

section task
variable {m m' : Memory} {own : ℕ → Owner} {r i k : ℕ} {name : CStr}

theorem IsTask.load (h : IsTask m name i) : loadTaskImg name r m = ((m.tasks i).vaddr,
    loadPages r (m.tasks i).memsz (m.tasks i).vaddr (m.tasks i).imageOffset (m.tasks i).filesz (m.tasks i).memsz m) := by
  have hscan : scan (fun j => if name ≠ [] ∧ name = (m.tasks j).name then some j else none) 0 taskMaxnum = some i :=
    scan_eq_some.2 ⟨i, Nat.zero_le _, by have := h.lt; omega, if_pos ⟨h.nonempty, h.named.symm⟩,
      fun j _ hj => if_neg fun hn => h.first j hj hn.2.symm⟩
  unfold loadTaskImg
  rw [hscan]

/-- A name is that of a program, or of none. -/
theorem isTask_or (m : Memory) (name : CStr) : NotATask m name ∨ ∃ i, IsTask m name i := by
  by_cases h : ∃ i, i < taskMaxnum ∧ name ≠ [] ∧ (m.tasks i).name = name
  · obtain ⟨h1, h2, h3⟩ := Nat.find_spec h
    exact Or.inr ⟨Nat.find h, h1, h2, h3, fun j hj hn => Nat.find_min h hj ⟨by omega, h2, hn⟩⟩
  · exact Or.inl fun i hi hne hn => h ⟨i, hi, hne, hn.symm⟩

/-- A root table without user entries has no tables below it. -/
theorem fresh_tables (S : SpaceOk m own) (hfresh : ∀ i < 256, ¬ Present (readPte m (r + 8 * i))) :
    TablesFor own r ∅ := by
  refine ⟨fun i => iff_of_false ?_ (by simp), fun k => iff_of_false ?_ (by simp)⟩
  · rintro ⟨p, hp⟩
    obtain ⟨a, hpl, hpr, -⟩ := S.tables.up (p := p) (r := r) (by rw [hp]; rfl)
    rw [hp] at hpl
    cases hpl with
    | mid _ hi => exact hfresh i hi hpr
  · rintro ⟨t, ht⟩
    obtain ⟨p, i, j, -, -, hi, -, -, ⟨hpr, -⟩, -⟩ := S.tables.path ht
    exact hfresh i hi hpr

theorem fresh_entry (S : SpaceOk m own) (hr : own r = .root) (hfresh : ∀ i < 256, ¬ Present (readPte m (r + 8 * i)))
    {v : ℕ} (hv : v < userPages) : entry m r v = 0 :=
  S.tables.entry_none hr hv fun t ht => by
    have := (fresh_tables S hfresh).tab (v / 512)
    exact absurd (this.1 ⟨t, ht⟩) (by simp)

/-- What the allocator takes below the buffer is beside it. -/
theorem beside_of_took (h : Took k m m') (hm : m'.kernMemCurr ≤ temp) : BesideTemp m m' := by
  obtain ⟨evs, he, -, hbelow⟩ := h.log
  exact ⟨evs, he, fun p hp => Or.inl ((hbelow p hp).trans hm)⟩

theorem not_beside (h : TempTaken m m') : ¬ BesideTemp m m' := by
  rintro ⟨evs, he, hall⟩
  obtain ⟨evs', he', hin⟩ := h
  obtain rfl := List.append_cancel_left (he.symm.trans he')
  have hs : sectorSize = 512 := rfl
  rcases hall temp hin with h | h <;> omega

end task

/-- The memory after start-up with one program in the image, when the allocator has come to `curr`. -/
def imageMemory (curr : ℕ) (t : TaskInfo) : Memory := { startMemory with
  kernMemCurr := curr
  sd := fun a => if a < 4096 then 1#8 else 2#8
  tasks := fun i => if i = 0 then t else ⟨[], 0, 0, 0, 0⟩ }

section image
variable {curr : ℕ} {t : TaskInfo}

theorem imageMemory_start (t : TaskInfo) : MemoryStart (imageMemory freememKernel t) :=
  ⟨rfl, rfl, rfl, fun _ _ => rfl, rfl, startMemory_start.clock, fun _ _ => ⟨rfl, rfl⟩, startMemory_start.kernel⟩

theorem imageMemory_ok (t : TaskInfo) (h1 : curr % 4096 = 0) (h2 : freememKernel ≤ curr) (h3 : curr ≤ 2 ^ 64) :
    SpaceOk (imageMemory curr t) fun _ => .unused := by
  have H : HeapOwned (imageMemory curr t) fun _ => .unused :=
    ⟨[], [], ⟨⟨h1, h2, h3⟩, by simp, by simp, rfl, rfl⟩, fun p => by simp, fun p hp => absurd rfl hp.1⟩
  exact And.left ((imageMemory_start t).spaceOk.beside (X := ∅) H ⟨rfl, rfl, rfl, rfl, rfl, rfl, rfl⟩
    (fun o ho => absurd ho id) (fun p hp => absurd rfl hp) fun a ha => absurd rfl ha)

theorem newSpace_tasks (m : Memory) : (newSpace m).tasks = m.tasks := allocPage_tasks 1 m

/-- The program is the only one with a name. -/
theorem imageMemory_isTask {name : CStr} {i : ℕ} (h : IsTask (newSpace (imageMemory curr t)) name i) :
    (newSpace (imageMemory curr t)).tasks i = t := by
  have hn := h.named
  rw [newSpace_tasks] at hn ⊢
  by_cases hi : i = 0
  · exact if_pos hi
  · have hnil : ((imageMemory curr t).tasks i).name = [] := congrArg TaskInfo.name (if_neg hi)
    exact absurd (hn.symm.trans hnil) h.nonempty

end image

/-- A program of 20 bytes, 9 of them in the image, that begins in front of a page and in front of a sector. -/
def crossing : TaskInfo := ⟨[97#8], 507, 0x10ffa, 20, 9⟩

/-- A program of one page and one byte. -/
def twoPages : TaskInfo := ⟨[97#8], 0, 0x10000, 4097, 4097⟩

end RiscvKernel.Sched
