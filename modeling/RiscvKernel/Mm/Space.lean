import RiscvKernel.Mm.Map

/-!
# Address spaces

`SpaceOk` is what holds of the memory between the calls: the allocator, the page tables, the list of active
pages, the swap area and the shared pages agree with each other. `Frame X` is what a call leaves as it is:
everything but what belongs to the owners in `X`.
-/

namespace RiscvKernel.Mm

open Lib

/-- A page whose contents matter to programs. -/
def Owner.Held : Owner → Prop
  | .data .. | .shm _ | .pipe _ => True
  | _ => False

theorem Owner.Held.used {o : Owner} (h : o.Held) : o.Used := by
  cases o <;> first | exact h.elim | exact ⟨nofun, nofun⟩

theorem Owner.Held.not_isTable {o : Owner} (h : o.Held) : ¬ o.IsTable := by
  cases o <;> first | exact h.elim | exact id

theorem Owner.IsTable.used {o : Owner} (h : o.IsTable) : o.Used := by
  cases o <;> first | exact h.elim | exact ⟨nofun, nofun⟩

/-! ## Kinds of entries -/

def Shared (e : ℕ) : Prop := Present e ∧ getAttribute e pageShm ≠ 0

def Swapped (e : ℕ) : Prop := ¬ Present e ∧ getAttribute e pageSwap ≠ 0

/-- The slot of the swap area in an entry. -/
def swapIdOf (e : ℕ) : ℕ := e / 2 ^ 10

instance (e : ℕ) : Decidable (Shared e) := inferInstanceAs (Decidable (_ ∧ _))
instance (e : ℕ) : Decidable (Swapped e) := inferInstanceAs (Decidable (_ ∧ _))

theorem not_shared_zero : ¬ Shared 0 := by decide

theorem not_swapped_zero : ¬ Swapped 0 := by decide

/-- The entries say the same but for the accessed bit. -/
def Like (e e' : ℕ) : Prop :=
  e' = e ∨ (Present e ∧ Present e' ∧ target e' = target e ∧ (Shared e' ↔ Shared e))

namespace Like

variable {e e' e'' : ℕ}

theorem refl (e : ℕ) : Like e e := Or.inl rfl

theorem trans (h : Like e e') (h' : Like e' e'') : Like e e'' := by
  rcases h with rfl | ⟨h1, h2, h3, h4⟩
  · exact h'
  · rcases h' with rfl | ⟨-, h5, h6, h7⟩
    · exact Or.inr ⟨h1, h2, h3, h4⟩
    · exact Or.inr ⟨h1, h5, h6.trans h3, h7.trans h4⟩

theorem present (h : Like e e') : Present e' ↔ Present e := by
  rcases h with rfl | ⟨h1, h2, -⟩
  · rfl
  · exact iff_of_true h2 h1

theorem target (h : Like e e') : target e' = target e := by
  rcases h with rfl | ⟨-, -, h3, -⟩
  · rfl
  · exact h3

theorem shared (h : Like e e') : Shared e' ↔ Shared e := by
  rcases h with rfl | ⟨-, -, -, h4⟩
  · rfl
  · exact h4

/-- An entry that is not present is the same. -/
theorem eq_of_not_present (h : Like e e') (hp : ¬ Present e) : e' = e := by
  rcases h with rfl | ⟨h1, -⟩
  · rfl
  · exact absurd h1 hp

theorem swapped (h : Like e e') (hs : Swapped e') : e' = e := by
  rcases h with rfl | ⟨-, h2, -⟩
  · rfl
  · exact absurd h2 hs.1

end Like

/-! ## What a step leaves as it is -/

/-- Owners, entries and the kernel's part of the memory are as before, but for what is in `X`. -/
structure Frame (X : Set Owner) (m : Memory) (own : ℕ → Owner) (m' : Memory) (own' : ℕ → Owner) : Prop where
  root : ∀ r, own' r = .root ↔ own r = .root
  owner : ∀ p, (own p).Held → own p ∉ X → own' p = own p
  shm : ∀ p i, own' p = .shm i → own p = .shm i
  pte : ∀ {r v a}, own r = .root → v < userPages → .data r v ∉ X → getPte (v * 4096) r m = some a →
    getPte (v * 4096) r m' = some a
  entry : ∀ {r v}, own r = .root → v < userPages → .data r v ∉ X → Like (entry m r v) (entry m' r v)
  low : ∀ a < freememKernel, m'.mem a = m.mem a

/-- The pages of the owners that are not in `X` have the same contents. -/
def Untouched (X : Set Owner) (m : Memory) (own : ℕ → Owner) (m' : Memory) : Prop :=
  ∀ p, (own p).Held → own p ∉ X → ∀ a, InPage p a → m'.mem a = m.mem a

section frame
variable {X Y : Set Owner} {m m' m'' : Memory} {own own' own'' : ℕ → Owner} {r v : ℕ}

theorem Frame.refl (X : Set Owner) (m : Memory) (own : ℕ → Owner) : Frame X m own m own :=
  ⟨fun _ => Iff.rfl, fun _ _ _ => rfl, fun _ _ => id, fun _ _ _ => id, fun _ _ _ => Like.refl _, fun _ _ => rfl⟩

theorem Frame.trans (h : Frame X m own m' own') (h' : Frame X m' own' m'' own'') : Frame X m own m'' own'' := by
  refine ⟨fun r => (h'.root r).trans (h.root r), fun p hp hX => ?_, fun p i hp => h.shm p i (h'.shm p i hp),
    fun hr hv hX ha => h'.pte ((h.root _).2 hr) hv hX (h.pte hr hv hX ha),
    fun hr hv hX => (h.entry hr hv hX).trans (h'.entry ((h.root _).2 hr) hv hX),
    fun a ha => (h'.low a ha).trans (h.low a ha)⟩
  have h1 := h.owner p hp hX
  rw [← h1] at hp hX ⊢
  exact h'.owner p hp hX

theorem Frame.mono (h : Frame X m own m' own') (hX : X ⊆ Y) : Frame Y m own m' own' :=
  ⟨h.root, fun p hp hn => h.owner p hp fun hx => hn (hX hx), h.shm, fun hr hv hn => h.pte hr hv fun hx => hn (hX hx),
    fun hr hv hn => h.entry hr hv fun hx => hn (hX hx), h.low⟩

theorem Untouched.refl (X : Set Owner) (m : Memory) (own : ℕ → Owner) : Untouched X m own m :=
  fun _ _ _ _ _ => rfl

theorem Untouched.trans (h : Untouched X m own m') (F : Frame X m own m' own') (h' : Untouched X m' own' m'') :
    Untouched X m own m'' := by
  intro p hp hX a ha
  have h1 := F.owner p hp hX
  exact (h' p (by rw [h1]; exact hp) (by rw [h1]; exact hX) a ha).trans (h p hp hX a ha)

theorem Untouched.mono (h : Untouched X m own m') (hX : X ⊆ Y) : Untouched Y m own m' :=
  fun p hp hn => h p hp fun hx => hn (hX hx)

end frame

/-! ## Active pages -/

/-- The entry of the list describes the page at page number `v` of `r`. -/
structure Listed (m : Memory) (own : ℕ → Owner) (e : ActivePage) (r v : ℕ) : Prop where
  root : own r = .root
  user : v < userPages
  pte : getPte (v * 4096) r m = some e.pte
  present : Present (entry m r v)
  kva : target (entry m r v) = e.kva
  owner : own e.kva = .data r v

/-- The list of active pages. An entry that is no longer valid may have the page of a valid one only if it
comes later: `remove_from_active_list` takes the first entry with the page. -/
structure ActiveOk (m : Memory) (own : ℕ → Owner) : Prop where
  listed : ∀ i < maxAllowablePages, (m.activePages i).valid → ∃ r v, Listed m own (m.activePages i) r v
  first : ∀ i < maxAllowablePages, ∀ j < i, (m.activePages i).valid → (m.activePages j).kva ≠ (m.activePages i).kva
  count : m.activePageCount ≤ ((Finset.range maxAllowablePages).filter fun i => (m.activePages i).valid).card
  clock : m.clockHead < maxAllowablePages

/-- No valid entry of the list is about page number `v` of `r`. -/
def Unlisted (m : Memory) (own : ℕ → Owner) (r v : ℕ) : Prop :=
  ∀ i < maxAllowablePages, (m.activePages i).valid → ¬ Listed m own (m.activePages i) r v

/-! ## Swapped pages -/

/-- Pages in the swap area have slots of their own. -/
structure SwapOk (m : Memory) (own : ℕ → Owner) : Prop where
  taken : ∀ {r v}, own r = .root → v < userPages → Swapped (entry m r v) →
    swapIdOf (entry m r v) < swapMaxPages ∧ m.swapPageStatus (swapIdOf (entry m r v)) = true
  distinct : ∀ {r v r' v'}, own r = .root → v < userPages → Swapped (entry m r v) → own r' = .root →
    v' < userPages → Swapped (entry m r' v') → swapIdOf (entry m r v) = swapIdOf (entry m r' v') → r = r' ∧ v = v'

/-! ## Shared pages -/

/-- The page number of a slot. -/
def shmVpn (i : ℕ) : ℕ := shmVaBase / 4096 + i

/-- The table of shared pages and the page tables agree; a slot counts the tables that have its page. -/
structure ShmOk (m : Memory) (own : ℕ → Owner) : Prop where
  va : ∀ i < shmMaxNum, (m.shmTable i).va = shmVaBase + i * 4096
  page : ∀ i < shmMaxNum, (m.shmTable i).valid → ∃ p, own p = .shm i ∧ (m.shmTable i).pa = kva2pa p
  owned : ∀ p i, own p = .shm i → i < shmMaxNum ∧ (m.shmTable i).valid ∧ pa2kva (m.shmTable i).pa = p
  place : ∀ {r v}, own r = .root → v < userPages → Shared (entry m r v) →
    ∃ i, v = shmVpn i ∧ own (target (entry m r v)) = .shm i
  count : ∀ i < shmMaxNum, (m.shmTable i).valid →
    ∃ rs : List ℕ, rs.Nodup ∧ (∀ r, r ∈ rs ↔ own r = .root ∧ Shared (entry m r (shmVpn i))) ∧
      (m.shmTable i).refCount = rs.length

/-- The memory management is in order. -/
structure SpaceOk (m : Memory) (own : ℕ → Owner) : Prop where
  heap : HeapOwned m own
  tables : TablesOk m own
  active : ActiveOk m own
  swap : SwapOk m own
  shm : ShmOk m own
  kernel : ∀ i < 256, ¬ Present (readPte m (pa2kva pgdirPa + 8 * i))

theorem shmVpn_lt {i : ℕ} (hi : i < shmMaxNum) : shmVpn i < userPages := by
  unfold shmMaxNum at hi
  unfold shmVpn shmVaBase userPages
  omega

/-! ## Steps that touch little -/

section transfer
variable {X : Set Owner} {m m' : Memory} {own own' : ℕ → Owner} {r v : ℕ}

theorem Listed.frame {e : ActivePage} (h : Listed m own e r v) (F : Frame X m own m' own') (hX : .data r v ∉ X) :
    Listed m' own' e r v := by
  have hlike := F.entry h.root h.user hX
  refine ⟨(F.root r).2 h.root, h.user, F.pte h.root h.user hX h.pte, hlike.present.2 h.present,
    hlike.target.trans h.kva, ?_⟩
  rw [← h.owner]
  exact F.owner _ (by rw [h.owner]; trivial) (by rw [h.owner]; exact hX)

theorem ActiveOk.frame (A : ActiveOk m own) (F : Frame X m own m' own') (hpages : m'.activePages = m.activePages)
    (hcount : m'.activePageCount = m.activePageCount) (hclock : m'.clockHead = m.clockHead)
    (hX : ∀ r v, own r = .root → v < userPages → .data r v ∈ X → Unlisted m own r v) : ActiveOk m' own' := by
  refine ⟨fun i hi hvalid => ?_, ?_, ?_, hclock ▸ A.clock⟩
  · rw [hpages] at hvalid ⊢
    obtain ⟨r, v, h⟩ := A.listed i hi hvalid
    exact ⟨r, v, h.frame F fun hx => hX r v h.root h.user hx i hi hvalid h⟩
  · rw [hpages]
    exact A.first
  · rw [hpages, hcount]
    exact A.count

theorem SwapOk.frame (S : SwapOk m own) (F : Frame X m own m' own') (hstatus : m'.swapPageStatus = m.swapPageStatus)
    (hX : ∀ r v, own r = .root → v < userPages → .data r v ∈ X → ¬ Swapped (entry m' r v)) : SwapOk m' own' := by
  have hold {r v : ℕ} (hr : own r = .root) (hv : v < userPages) (hs : Swapped (entry m' r v)) :
      entry m' r v = entry m r v :=
    (F.entry hr hv fun hx => hX r v hr hv hx hs).swapped hs
  refine ⟨fun {r v} hr hv hs => ?_, fun {r v r' v'} hr hv hs hr' hv' hs' hid => ?_⟩
  · have hr := (F.root r).1 hr
    have heq := hold hr hv hs
    rw [heq] at hs ⊢
    rw [hstatus]
    exact S.taken hr hv hs
  · have hr := (F.root r).1 hr
    have hr' := (F.root r').1 hr'
    have heq := hold hr hv hs
    have heq' := hold hr' hv' hs'
    rw [heq] at hs hid
    rw [heq'] at hs' hid
    exact S.distinct hr hv hs hr' hv' hs' hid

theorem ShmOk.frame (S : ShmOk m own) (F : Frame X m own m' own') (htable : m'.shmTable = m.shmTable)
    (hX : ∀ r v, own r = .root → v < userPages → .data r v ∈ X → ¬ Shared (entry m r v) ∧ ¬ Shared (entry m' r v))
    (hXs : ∀ i, .shm i ∉ X) : ShmOk m' own' := by
  have hshared {r v : ℕ} (hr : own r = .root) (hv : v < userPages) :
      Shared (entry m' r v) ↔ Shared (entry m r v) := by
    by_cases hx : .data r v ∈ X
    · exact iff_of_false (hX r v hr hv hx).2 (hX r v hr hv hx).1
    · exact (F.entry hr hv hx).shared
  have hshm {p i : ℕ} (hp : own p = .shm i) : own' p = .shm i := by
    rw [← hp]
    exact F.owner p (by rw [hp]; trivial) (by rw [hp]; exact hXs i)
  refine ⟨?_, fun i hi hvalid => ?_, fun p i hp => ?_, fun {r v} hr hv hs => ?_, fun i hi hvalid => ?_⟩
  · rw [htable]
    exact S.va
  · rw [htable] at hvalid ⊢
    obtain ⟨p, hp, hpa⟩ := S.page i hi hvalid
    exact ⟨p, hshm hp, hpa⟩
  · rw [htable]
    exact S.owned p i (F.shm p i hp)
  · have hr := (F.root r).1 hr
    have hs := (hshared hr hv).1 hs
    obtain ⟨i, hvi, hown⟩ := S.place hr hv hs
    have hx : .data r v ∉ X := fun hx => (hX r v hr hv hx).1 hs
    exact ⟨i, hvi, by rw [(F.entry hr hv hx).target]; exact hshm hown⟩
  · rw [htable] at hvalid ⊢
    obtain ⟨rs, hnd, hmem, hcount⟩ := S.count i hi hvalid
    refine ⟨rs, hnd, fun r => ?_, hcount⟩
    rw [hmem r, F.root r]
    exact and_congr_right fun hr => (hshared hr (shmVpn_lt hi)).symm

/-- The kernel's root table has no entries for user addresses. -/
theorem SpaceOk.kernel_frame (S : SpaceOk m own) (hlow : ∀ a < freememKernel, m'.mem a = m.mem a) :
    ∀ i < 256, ¬ Present (readPte m' (pa2kva pgdirPa + 8 * i)) := by
  intro i hi
  have hbound : pa2kva pgdirPa + 4096 ≤ freememKernel := by decide
  rw [readPte_congr fun j hj => hlow _ (by omega)]
  exact S.kernel i hi

/-- **A step that only touches what belongs to `X`** keeps everything in order. -/
theorem SpaceOk.frame (S : SpaceOk m own) (H : HeapOwned m' own') (T : TablesOk m' own') (F : Frame X m own m' own')
    (R : SameRest m m')
    (hX : ∀ r v, own r = .root → v < userPages → .data r v ∈ X → Unlisted m own r v ∧ ¬ Shared (entry m r v) ∧
      ¬ Shared (entry m' r v) ∧ ¬ Swapped (entry m' r v)) (hXs : ∀ i, .shm i ∉ X) : SpaceOk m' own' :=
  ⟨H, T, S.active.frame F R.activePages R.activePageCount R.clockHead fun r v hr hv hx => (hX r v hr hv hx).1,
    S.swap.frame F R.swapPageStatus fun r v hr hv hx => (hX r v hr hv hx).2.2.2,
    S.shm.frame F R.shmTable (fun r v hr hv hx => ⟨(hX r v hr hv hx).2.1, (hX r v hr hv hx).2.2.1⟩) hXs,
    S.kernel_frame F.low⟩

end transfer

end RiscvKernel.Mm
