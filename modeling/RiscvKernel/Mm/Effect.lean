import RiscvKernel.Mm.Ending
import RiscvKernel.Mm.Sharing
import RiscvKernel.Mm.Clock

/-!
# The memory management in use

`Tidy` adds to `SpaceOk` what holds as long as nobody has lost a page: every page that has been handed out has
its one use, and every slot of the swap area and of the table of shared pages that is taken is in use.

`Effect Z H` is what a call does: it concerns the page numbers in `Z` and the page frames in `H`. Everything
else that programs see is as before (`Effect.cell`), and the memory stays tidy (`Tidy.effect`). There is one
effect for each of the calls.
-/

namespace RiscvKernel.Mm

open Lib

/-! ## What programs see -/

/-- The contents of a page. -/
abbrev Page := Fin 4096 → Byte

/-- What is at a page number of an address space. -/
inductive Cell
  | none
  | own (c : Page)
  | shared (i : ℕ)

instance (m : Memory) (r v : ℕ) : Decidable (Filled m r v) := inferInstanceAs (Decidable (_ ∨ _))

/-- The contents of the page frame `p`. -/
def pageAt (m : Memory) (p : ℕ) : Page := fun off => m.mem (p + off)

/-- What the program with the root table `r` sees at page number `v`. -/
def cell (m : Memory) (r v : ℕ) : Cell :=
  if Shared (entry m r v) then .shared (v - shmVpn 0)
  else if Filled m r v then .own fun off => pageOf m r v off
  else .none

/-- The key of a slot and the contents of its page. -/
def slotOf (m : Memory) (i : ℕ) : Option (ℤ × Page) :=
  if (m.shmTable i).valid then some ((m.shmTable i).key, pageAt m (pa2kva (m.shmTable i).pa)) else none

section cells
variable {m m' : Memory} {r v : ℕ}

theorem Like.swappedIff {e e' : ℕ} (h : Like e e') : Swapped e' ↔ Swapped e := by
  constructor
  · intro hs
    rwa [← h.swapped hs]
  · intro hs
    rwa [h.eq_of_not_present hs.1]

theorem Like.filled (h : Like (entry m r v) (entry m' r v)) : Filled m' r v ↔ Filled m r v :=
  or_congr h.present h.swappedIff

theorem cell_eq (hs : Shared (entry m' r v) ↔ Shared (entry m r v)) (hf : Filled m' r v ↔ Filled m r v)
    (hc : ∀ off < 4096, pageOf m' r v off = pageOf m r v off) : cell m' r v = cell m r v := by
  have hpage : (fun off : Fin 4096 => pageOf m' r v off) = fun off : Fin 4096 => pageOf m r v off :=
    funext fun off => hc off off.isLt
  unfold cell
  rw [hpage]
  exact if_congr hs rfl (if_congr hf rfl rfl)

theorem cell_private (hs : ¬ Shared (entry m r v)) (hf : Filled m r v) : cell m r v = .own fun off => pageOf m r v off := by
  unfold cell
  rw [if_neg hs, if_pos hf]

theorem cell_shared {i : ℕ} (hs : Shared (entry m r (shmVpn i))) : cell m r (shmVpn i) = .shared i := by
  have hi : shmVpn i - shmVpn 0 = i := by
    unfold shmVpn
    omega
  unfold cell
  rw [if_pos hs, hi]

theorem cell_none (hf : ¬ Filled m r v) : cell m r v = .none := by
  unfold cell
  rw [if_neg fun hs => hf (Or.inl hs.1), if_neg hf]

end cells

/-! ## Effects -/

/-- What a call does that concerns the page numbers in `Z` and the page frames in `H`. -/
structure Effect (Z : Set (ℕ × ℕ)) (H : Set ℕ) (m : Memory) (own : ℕ → Owner) (m' : Memory) (own' : ℕ → Owner) :
    Prop where
  space : SpaceOk m' own'
  held : ∀ p, p ∉ H → (own p).Held ∨ (own' p).Held → own' p = own p
  mem : ∀ p, (own p).Held → p ∉ H → ∀ a, InPage p a → m'.mem a = m.mem a
  entry : ∀ {x v}, own x = .root → own' x = .root → v < userPages → (x, v) ∉ Z → Like (entry m x v) (entry m' x v)
  contents : ∀ {x v off}, own x = .root → own' x = .root → v < userPages → (x, v) ∉ Z → off < 4096 →
    pageOf m' x v off = pageOf m x v off
  fresh : ∀ {x v}, own x ≠ .root → own' x = .root → v < userPages → Mm.entry m' x v = 0
  leave : ∀ {x v p}, own x = .root → own' x ≠ .root → Private m x v p → p ∈ H
  data : ∀ {p x v}, own' p = .data x v → p ∈ H ∨ (x, v) ∈ Z → own' x = .root ∧ Private m' x v p
  kernel : ∀ p, own p ≠ .kernel → own' p ≠ .kernel
  booked : Booked m own m' own'
  slots : ∀ s, m'.swapPageStatus s = true →
    (m.swapPageStatus s = true ∧ ∀ x v, own x = .root → own' x ≠ .root ∨ (x, v) ∈ Z → v < userPages →
      Swapped (Mm.entry m x v) → swapIdOf (Mm.entry m x v) ≠ s) ∨
    ∃ x v, own' x = .root ∧ v < userPages ∧ Swapped (Mm.entry m' x v) ∧ swapIdOf (Mm.entry m' x v) = s

/-- Nobody has lost a page. -/
structure Tidy (m : Memory) (own : ℕ → Owner) : Prop where
  space : SpaceOk m own
  data : ∀ {p r v}, own p = .data r v → own r = .root ∧ Private m r v p
  kernel : ∀ p, own p ≠ .kernel
  booked : ∀ p, p % 4096 = 0 → freememKernel ≤ p → p < m.kernMemCurr → own p ≠ .unused
  slots : ∀ s, m.swapPageStatus s = true →
    ∃ r v, own r = .root ∧ v < userPages ∧ Swapped (entry m r v) ∧ swapIdOf (entry m r v) = s
  users : ∀ i < shmMaxNum, (m.shmTable i).valid → 0 < (m.shmTable i).refCount
  keys : ∀ i < shmMaxNum, ∀ j < shmMaxNum, (m.shmTable i).valid → (m.shmTable j).valid →
    (m.shmTable i).key = (m.shmTable j).key → i = j

section effects
variable {Z : Set (ℕ × ℕ)} {H : Set ℕ} {m m' : Memory} {own own' : ℕ → Owner} {r v i : ℕ}

/-- Programs see no difference elsewhere. -/
theorem Effect.cell (E : Effect Z H m own m' own') (hr : own r = .root) (hr' : own' r = .root) (hv : v < userPages)
    (hz : (r, v) ∉ Z) : cell m' r v = cell m r v := by
  have hlike := E.entry hr hr' hv hz
  exact cell_eq hlike.shared hlike.filled fun _ hoff => E.contents hr hr' hv hz hoff

/-- A new address space is empty. -/
theorem Effect.cell_fresh (E : Effect Z H m own m' own') (hr : own r ≠ .root) (hr' : own' r = .root) (hv : v < userPages) :
    Mm.cell m' r v = .none :=
  cell_none (not_filled (E.fresh hr hr' hv))

/-- The contents of a frame elsewhere. -/
theorem Effect.pageAt (E : Effect Z H m own m' own') {p : ℕ} (hp : (own p).Held) (hH : p ∉ H) :
    pageAt m' p = pageAt m p :=
  funext fun off => E.mem p hp hH _ ⟨by omega, by have := off.isLt; omega⟩

/-- The contents of a slot with the same key and page. -/
theorem Effect.slotOf (E : Effect Z H m own m' own') (S : SpaceOk m own) (hi : i < shmMaxNum)
    (hvalid : (m'.shmTable i).valid = (m.shmTable i).valid) (hkey : (m'.shmTable i).key = (m.shmTable i).key)
    (hpa : (m'.shmTable i).pa = (m.shmTable i).pa) (hH : ∀ p, own p = .shm i → p ∉ H) : slotOf m' i = slotOf m i := by
  unfold Mm.slotOf
  rw [hvalid, hkey, hpa]
  by_cases hv : (m.shmTable i).valid
  · obtain ⟨p, hp, -⟩ := S.shm.page i hi hv
    have hk : pa2kva (m.shmTable i).pa = p := (S.shm.owned p i hp).2.2
    rw [if_pos hv, if_pos hv, hk, E.pageAt (by rw [hp]; trivial) (hH p hp)]
  · rw [if_neg hv, if_neg hv]

/-- **What a call leaves tidy.** -/
theorem Tidy.effect (Y : Tidy m own) (E : Effect Z H m own m' own')
    (husers : ∀ i < shmMaxNum, (m'.shmTable i).valid → 0 < (m'.shmTable i).refCount)
    (hkeys : ∀ i < shmMaxNum, ∀ j < shmMaxNum, (m'.shmTable i).valid → (m'.shmTable j).valid →
      (m'.shmTable i).key = (m'.shmTable j).key → i = j) : Tidy m' own' := by
  refine ⟨E.space, fun {p x v} hp => ?_, fun p => E.kernel p (Y.kernel p), fun p h1 h2 h3 => ?_, fun s hs => ?_, husers, hkeys⟩
  · by_cases hin : p ∈ H ∨ (x, v) ∈ Z
    · exact E.data hp hin
    · obtain ⟨hH, hZ⟩ := not_or.1 hin
      obtain ⟨hx, hpriv⟩ := Y.data ((E.held p hH (Or.inr (by rw [hp]; trivial))).symm.trans hp)
      have hx' : own' x = .root := by
        by_contra hne
        exact hH (E.leave hx hne hpriv)
      obtain ⟨hv, hpr, hns, ht⟩ := hpriv
      have hlike := E.entry hx hx' hv hZ
      exact ⟨hx', hv, hlike.present.2 hpr, fun h => hns (hlike.shared.1 h), hlike.target.trans ht⟩
  · by_cases hp : p < m.kernMemCurr
    · exact E.booked.old p (Y.booked p h1 h2 hp)
    · exact E.booked.fresh p h1 (not_lt.1 hp) h3
  · rcases E.slots s hs with ⟨hold, hno⟩ | hnew
    · obtain ⟨x, v, hx, hv, hsw, hid⟩ := Y.slots s hold
      have hnot : ¬ (own' x ≠ .root ∨ (x, v) ∈ Z) := fun h => hno x v hx h hv hsw hid
      obtain ⟨hx', hZ⟩ := not_or.1 hnot
      have hx' := not_not.1 hx'
      have heq := (E.entry hx hx' hv hZ).eq_of_not_present hsw.1
      exact ⟨x, v, hx', hv, by rw [heq]; exact hsw, by rw [heq]; exact hid⟩
    · exact hnew

end effects

/-- A step that programs do not see. -/
structure Unseen (m : Memory) (own : ℕ → Owner) (m' : Memory) (own' : ℕ → Owner) : Prop where
  effect : ∃ Z H, Effect Z H m own m' own' ∧ ∀ p ∈ H, ∃ x v, own p = .data x v
  root : ∀ x, own' x = .root ↔ own x = .root
  pipe : ∀ p i, own' p = .pipe i ↔ own p = .pipe i
  shm : m'.shmTable = m.shmTable
  cell : ∀ x v, own x = .root → v < userPages → cell m' x v = cell m x v

theorem Effect.unseen {m m' : Memory} {own : ℕ → Owner} (E : Effect ∅ ∅ m own m' own) (h : m'.shmTable = m.shmTable) :
    Unseen m own m' own :=
  ⟨⟨∅, ∅, E, fun _ h => absurd h id⟩, fun _ => Iff.rfl, fun _ _ => Iff.rfl, h, fun _ _ hx hv => E.cell hx hx hv id⟩

theorem Unseen.tidy {m m' : Memory} {own own' : ℕ → Owner} (U : Unseen m own m' own') (Y : Tidy m own) : Tidy m' own' := by
  obtain ⟨Z, H, E, -⟩ := U.effect
  refine Y.effect E ?_ ?_
  · rw [U.shm]
    exact Y.users
  · rw [U.shm]
    exact Y.keys

/-! ## The calls -/

section calls
variable {m m' : Memory} {own own' : ℕ → Owner} {r v va i p q : ℕ} {X : Set Owner}

/-- A step that concerns no page number and no frame. -/
theorem effect_of_frame (S : SpaceOk m own) (S' : SpaceOk m' own) (F : Frame ∅ m own m' own) (U : Untouched ∅ m own m')
    (hsd : m'.sd = m.sd) (hstart : m'.swapStartSec = m.swapStartSec) (hcurr : m'.kernMemCurr = m.kernMemCurr)
    (hstatus : m'.swapPageStatus = m.swapPageStatus) : Effect ∅ ∅ m own m' own where
  space := S'
  held _ _ _ := rfl
  mem p hp _ := U p hp id
  entry hx _ hv _ := F.entry hx hv id
  contents hx _ hv _ hoff := pageOf_frame S F U hx hv id (fun _ => id) hstart (fun _ _ _ => by rw [hsd]) hoff
  fresh h h' := absurd h' h
  leave h h' := absurd h h'
  data _ h := h.elim (absurd · id) (absurd · id)
  kernel _ h := h
  booked := Booked.same (fun _ h => h) hcurr
  slots s hs := Or.inl ⟨hstatus ▸ hs, fun _ _ hx h => h.elim (absurd hx) (absurd · id)⟩

/-- **remove_from_active_list**. -/
theorem Tidy.untrack (Y : Tidy m own) {kva : ℕ} (h : removeFromActiveList kva m = some m') :
    Unseen m own m' own := by
  have S' := Y.space.removeFromActiveList h
  obtain ⟨⟨pages, n, c, rfl⟩, -, -⟩ := removeFromActiveList_spec Y.space.active h
  exact (effect_of_frame Y.space S' (frame_of_mem _ _ rfl) (fun _ _ _ _ _ => rfl) rfl rfl rfl rfl).unseen rfl

/-- It returns. -/
theorem Tidy.untrack_some (Y : Tidy m own) (kva : ℕ) : ∃ m', removeFromActiveList kva m = some m' := by
  obtain ⟨m', h, -⟩ := Y.space.active.tight.remove kva
  exact ⟨m', h⟩

/-- A private page has its frame for itself. -/
theorem Tidy.present_of_data (Y : Tidy m own) (hp : own p = .data r v) : Present (entry m r v) := (Y.data hp).2.2.1

/-- The entry with the bits that the hardware sets. -/
def used (e : ℕ) : ℕ := e ||| (pageAccessed ||| pageDirty)

theorem like_used {e : ℕ} (hp : Present e) : Like e (used e) := by
  have hbits {mask : ℕ} (h : (pageAccessed ||| pageDirty) &&& mask = 0) : getAttribute (used e) mask = getAttribute e mask := by
    unfold used getAttribute
    rw [Nat.and_or_distrib_right, h, Nat.or_zero]
  have h1 : Present (used e) ↔ Present e := by
    unfold Present
    rw [hbits (by decide)]
  have h2 : used e / 2 ^ 10 = e / 2 ^ 10 := by
    unfold used
    rw [← Nat.shiftRight_eq_div_pow, ← Nat.shiftRight_eq_div_pow, Nat.shiftRight_or_distrib]
    exact Nat.or_zero _
  refine Or.inr ⟨hp, h1.2 hp, ?_, and_congr h1 (by rw [hbits (by decide)])⟩
  unfold target getPa
  rw [h2]

/-- The hardware notes that a program has used the page at page number `v`. -/
def touch (r v : ℕ) (m : Memory) : Memory :=
  match getPte (v * 4096) r m with
  | none => m
  | some a => if Present (readPte m a) then writePte a (used (readPte m a)) m else m

/-- **The hardware** changes nothing that programs see. -/
theorem Tidy.touch (Y : Tidy m own) (hr : own r = .root) (hv : v < userPages) :
    Unseen m own (touch r v m) own := by
  have hsame : Effect ∅ ∅ m own m own :=
    effect_of_frame Y.space Y.space (Frame.refl _ _ _) (Untouched.refl _ _ _) rfl rfl rfl rfl
  unfold Mm.touch
  cases ha : getPte (v * 4096) r m with
  | none => exact hsame.unseen rfl
  | some a =>
    dsimp only
    by_cases hp : Present (readPte m a)
    · rw [if_pos hp]
      have hlt : used (readPte m a) < 2 ^ 64 := Nat.or_lt_two_pow (readPte_lt m a) (by decide)
      obtain ⟨S', F, U⟩ := Y.space.relike hr hv ha hlt (by rw [entry_slot hv ha]; exact like_used hp)
      exact (effect_of_frame Y.space S' F U rfl rfl rfl rfl).unseen rfl
    · rw [if_neg hp]
      exact hsame.unseen rfl

/-- A byte of a page frame. -/
def setByte (p : ℕ) (off : Fin 4096) (b : Byte) (m : Memory) : Memory :=
  { m with mem := Function.update m.mem (p + off) b }

/-- **A program writes a byte** to the page with the frame `p`, which is at no page number outside `Z`. -/
theorem Tidy.store {Z : Set (ℕ × ℕ)} (Y : Tidy m own) (hp : (own p).Held) (off : Fin 4096) (b : Byte)
    (hZ : ∀ {x w}, own x = .root → w < userPages → Present (entry m x w) → target (entry m x w) = p → (x, w) ∈ Z) :
    Effect Z {p} m own (setByte p off b m) own ∧
      ∀ {x w}, own x = .root → w < userPages → Like (entry m x w) (entry (setByte p off b m) x w) := by
  have S := Y.space
  have hoff := off.isLt
  have hmem (a : ℕ) (ha : ¬ InPage p a) : (setByte p off b m).mem a = m.mem a :=
    Function.update_of_ne (fun h => ha ⟨by omega, by omega⟩) _ _
  have hpage {p' : ℕ} (hu : own p' ≠ .unused) (hne : p' ≠ p) {a : ℕ} (ha : InPage p' a) : ¬ InPage p a := fun h =>
    hne (inPage_unique (S.heap.aligned p' hu) (S.heap.aligned p hp.used.1) ha h)
  obtain ⟨S', F⟩ : SpaceOk (setByte p off b m) own ∧ _ :=
    S.scribble hp.used hp.not_isTable hmem ⟨rfl, rfl, rfl, rfl, rfl, rfl, rfl⟩ rfl rfl rfl
  refine ⟨⟨S', fun _ _ _ => rfl, fun p' hp' hne a ha => hmem a (hpage hp'.used.1 hne ha), fun hx _ hv _ => F.entry hx hv id,
    fun {x w o} hx _ hv hz ho => ?_, fun h h' => absurd h' h, fun h h' => absurd h h', fun {p' x w} hp' _ => ?_,
    fun _ h => h, Booked.same (fun _ h => h) rfl, fun s hs => Or.inr (Y.slots s hs |>.imp fun x => ?_)⟩,
    fun hx hw => F.entry hx hw id⟩
  · have hlike := F.entry hx hv id
    unfold pageOf
    by_cases hpr : Present (entry m x w)
    · rw [if_pos hpr, if_pos (hlike.present.2 hpr), hlike.target]
      have hne : target (entry m x w) ≠ p := fun h => hz (hZ hx hv hpr h)
      have hu : own (target (entry m x w)) ≠ .unused := by
        rcases S.target_held hx hv hpr with ⟨h, -⟩ | ⟨j, h, -⟩ <;> rw [h] <;> exact nofun
      exact hmem (target (entry m x w) + o) (hpage hu hne ⟨by omega, by omega⟩)
    · rw [if_neg hpr, if_neg (fun h => hpr (hlike.present.1 h)), hlike.eq_of_not_present hpr]
      rfl
  · obtain ⟨hx, hv, hpr, hns, ht⟩ := Y.data hp'
    have hlike := F.entry hx hv id
    exact ⟨hx, hv, hlike.present.2 hpr, fun h => hns (hlike.shared.1 h), hlike.target.trans ht⟩
  · rintro ⟨w, hx, hv, hsw, hid⟩
    have heq := (F.entry hx hv id).eq_of_not_present hsw.1
    exact ⟨w, hx, hv, by rw [heq]; exact hsw, by rw [heq]; exact hid⟩

theorem pageAt_setByte (p : ℕ) (off : Fin 4096) (b : Byte) (m : Memory) :
    pageAt (setByte p off b m) p = Function.update (pageAt m p) off b := by
  funext o
  show Function.update m.mem (p + off) b (p + o) = _
  by_cases ho : o = off
  · rw [ho, Function.update_self, Function.update_self]
  · rw [Function.update_of_ne ho, Function.update_of_ne fun h => ho (Fin.ext (Nat.add_left_cancel h))]
    rfl

/-- The contents of a private page in memory. -/
theorem cell_present (hp : Present (entry m r v)) (hs : ¬ Shared (entry m r v)) :
    cell m r v = .own (pageAt m (target (entry m r v))) := by
  rw [cell_private hs (Or.inl hp)]
  exact congrArg Cell.own (funext fun off => pageOf_of_present hp rfl)

/-- A program writes to a page of its own. -/
theorem Tidy.storeOwn (Y : Tidy m own) (hr : own r = .root) (hv : v < userPages) (hp : Present (entry m r v))
    (hs : ¬ Shared (entry m r v)) (off : Fin 4096) (b : Byte) :
    Effect {(r, v)} {target (entry m r v)} m own (setByte (target (entry m r v)) off b m) own ∧
      own (target (entry m r v)) = .data r v ∧
      cell (setByte (target (entry m r v)) off b m) r v =
        .own (Function.update (pageAt m (target (entry m r v))) off b) := by
  have S := Y.space
  have hq : own (target (entry m r v)) = .data r v :=
    (S.target_held hr hv hp).elim And.left fun ⟨_, _, h⟩ => absurd h hs
  obtain ⟨E, hlike⟩ := Y.store (Z := {(r, v)}) (by rw [hq]; trivial) off b fun {x w} hx hw hp' ht => by
    rcases S.target_held hx hw hp' with ⟨h, -⟩ | ⟨j, h, -⟩
    · rw [ht, hq] at h
      cases h
      rfl
    · rw [ht, hq] at h
      cases h
  have hl := hlike hr hv
  refine ⟨E, hq, ?_⟩
  rw [cell_present (hl.present.2 hp) fun h => hs (hl.shared.1 h), hl.target, pageAt_setByte]

/-- A program writes to a shared page. -/
theorem Tidy.storeShared (Y : Tidy m own) (hr : own r = .root) (hi : i < shmMaxNum) (hs : Shared (entry m r (shmVpn i)))
    (off : Fin 4096) (b : Byte) :
    Effect {z | z.2 = shmVpn i ∧ Shared (entry m z.1 z.2)} {target (entry m r (shmVpn i))} m own
      (setByte (target (entry m r (shmVpn i))) off b m) own ∧
      own (target (entry m r (shmVpn i))) = .shm i ∧
      (∀ x w, own x = .root → w < userPages →
        cell (setByte (target (entry m r (shmVpn i))) off b m) x w = cell m x w) ∧
      slotOf (setByte (target (entry m r (shmVpn i))) off b m) i =
        (slotOf m i).map fun x => (x.1, Function.update x.2 off b) := by
  have S := Y.space
  have hq := S.shm.target_own hr hi hs
  obtain ⟨-, hvalid, hpa⟩ := S.shm.owned _ i hq
  generalize target (entry m r (shmVpn i)) = q at *
  obtain ⟨E, hlike⟩ := Y.store (Z := {z | z.2 = shmVpn i ∧ Shared (entry m z.1 z.2)}) (by rw [hq]; trivial) off b
    fun {x w} hx hw hp' ht => by
      rcases S.target_held hx hw hp' with ⟨h, -⟩ | ⟨j, h, hsh⟩
      · rw [ht, hq] at h
        cases h
      · obtain ⟨k, hk, ho⟩ := S.shm.place hx hw hsh
        rw [ht, hq] at ho
        cases ho
        exact ⟨hk, hsh⟩
  refine ⟨E, hq, fun x w hx hw => ?_, ?_⟩
  · by_cases hz : w = shmVpn i ∧ Shared (entry m x w)
    · obtain ⟨rfl, hsh⟩ := hz
      rw [cell_shared hsh, cell_shared ((hlike hx hw).shared.2 hsh)]
    · exact E.cell hx hx hw hz
  · unfold slotOf
    rw [if_pos hvalid, hpa]
    show (if (m.shmTable i).valid then some ((m.shmTable i).key, pageAt (setByte q off b m) (pa2kva (m.shmTable i).pa)) else none) = _
    rw [if_pos hvalid, hpa, pageAt_setByte]
    rfl

/-- A call that puts the frame `q` with the contents `c` at page number `v` of `r`. -/
structure Placed (r v q : ℕ) (c : Page) (m : Memory) (own : ℕ → Owner) (m' : Memory) (own' : ℕ → Owner) : Prop where
  effect : Effect {(r, v)} {q} m own m' own'
  root : ∀ x, own' x = .root ↔ own x = .root
  pipe : ∀ p, p ≠ q → ∀ i, own' p = .pipe i ↔ own p = .pipe i
  owner : own' q = .data r v
  shm : m'.shmTable = m.shmTable
  cell : cell m' r v = .own c

/-- The frame was not in use, or the kernel has taken it out of a pipe: `own₁` is what the frames are used for
when it is mapped. -/
theorem Tidy.placed {own₁ : ℕ → Owner} {c : Page} (Y : Tidy m own) (S₁ : SpaceOk m own₁)
    (hown : ∀ p, p ≠ q → own₁ p = own p) (hq : ¬ (own q).Used ∨ ∃ i, own q = .pipe i) (hq₁ : ¬ (own₁ q).Held)
    (P : Provided m own₁ m' own' r v q) (hr : own r = .root) (hv : v < userPages) (hentry : ¬ Present (entry m r v))
    (kept : ∀ p, p ≠ q → (own p).Used → own' p = own p) (changed : ∀ p, p ≠ q → own' p ≠ own p → (own' p).Below r)
    (booked : Booked m own m' own') (htable : m'.shmTable = m.shmTable)
    (hslots : ∀ s, m'.swapPageStatus s = true →
      m.swapPageStatus s = true ∧ (Swapped (entry m r v) → swapIdOf (entry m r v) ≠ s))
    (hc : ∀ off : Fin 4096, pageOf m' r v off = c off) : Placed r v q c m own m' own' := by
  have hqr (x : ℕ) (hx : own x = .root) : x ≠ q := by
    rintro rfl
    rcases hq with h | ⟨i, h⟩
    · exact h (by rw [hx]; exact ⟨nofun, nofun⟩)
    · rw [hx] at h
      cases h
  have hroot₁ (x : ℕ) : own₁ x = .root ↔ own x = .root := by
    by_cases hx : x = q
    · refine iff_of_false (fun h => ?_) fun h => hqr x h hx
      have hq' := (P.frame.root x).2 h
      rw [hx, P.owner] at hq'
      cases hq'
    · rw [hown x hx]
  have hroot (x : ℕ) : own' x = .root ↔ own x = .root := (P.frame.root x).trans (hroot₁ x)
  have hpriv : Private m' r v q := by
    refine ⟨hv, P.present, fun hs => ?_, P.target⟩
    obtain ⟨j, -, ho⟩ := P.space.shm.place ((hroot r).2 hr) hv hs
    rw [P.target, P.owner] at ho
    cases ho
  have hheld (x : ℕ) (hx : x ≠ q) (h : (own x).Held ∨ (own' x).Held) : own' x = own x := by
    by_contra hne
    rcases h with h | h
    · exact hne (kept x hx h.used)
    · exact h.not_isTable (changed x hx hne).isTable
  have hnone {x : ℕ} : own x ≠ .data r v := fun h => hentry (Y.present_of_data h)
  have hz {x w : ℕ} (h : (x, w) ∉ ({(r, v)} : Set (ℕ × ℕ))) : Owner.data x w ∉ ({.data r v} : Set Owner) :=
    fun hx => h (by cases hx; rfl)
  refine ⟨⟨P.space, hheld, fun x hx hxq a ha => ?_, fun hx _ hw h => P.frame.entry ((hroot₁ _).2 hx) hw (hz h),
    fun {x w o} hx _ hw h ho => ?_, fun {x w} h h' => absurd ((hroot x).1 h') h,
    fun {x w x'} h h' => absurd ((hroot x).2 h) h', fun {x y w} ho hin => ?_, fun x h => ?_, booked, fun s hs => ?_⟩,
    hroot, fun x hx i => ?_, P.owner, htable, ?_⟩
  · refine P.untouched x (by rw [hown x hxq]; exact hx) (fun h => hnone ((hown x hxq).symm.trans h)) a ha
  · exact pageOf_frame S₁ P.frame P.untouched ((hroot₁ x).2 hx) hw (hz h) (fun _ => nofun) P.start
      (fun _ _ _ => by rw [P.sd]) ho
  · -- the new page is the only one at its place
    by_cases hxq : x = q
    · subst hxq
      rw [P.owner] at ho
      cases ho
      exact ⟨(hroot r).2 hr, hpriv⟩
    · have hold := (hheld x hxq (Or.inr (by rw [ho]; trivial))).symm.trans ho
      rcases hin with hin | hin
      · exact absurd hin hxq
      · cases hin
        exact absurd hold hnone
  · by_cases hxq : x = q
    · rw [hxq, P.owner]
      exact nofun
    · by_cases hne : own' x = own x
      · rw [hne]
        exact h
      · intro hk
        have := changed x hxq hne
        rw [hk] at this
        exact this
  · obtain ⟨h1, h2⟩ := hslots s hs
    refine Or.inl ⟨h1, fun x w hx h _ hsw => ?_⟩
    rcases h with h | h
    · exact absurd ((hroot x).2 hx) h
    · cases h
      exact h2 hsw
  · constructor
    · exact fun h => (hheld x hx (Or.inr (by rw [h]; trivial))).symm.trans h
    · exact fun h => (hheld x hx (Or.inl (by rw [h]; trivial))).trans h
  · rw [cell_private hpriv.2.2.1 (Or.inl P.present)]
    exact congrArg Cell.own (funext hc)

/-- **handle_page_fault** at an address where no page is. -/
theorem Tidy.fault (Y : Tidy m own) (hr : own r = .root) (hv : vpn va < userPages)
    (hentry : ¬ Present (entry m r (vpn va))) (hroom : m.kernMemCurr + 3 * 4096 ≤ 2 ^ 64) :
    ¬ (own (handlePageFault va r m).1).Used ∧ ∃ own', Placed r (vpn va) (handlePageFault va r m).1
      (fun off => pageOf m r (vpn va) off) m own (handlePageFault va r m).2 own' := by
  obtain ⟨own', P, N, htable, hcontents, hrel⟩ := handlePageFault_spec Y.space hr hv hentry hroom
  refine ⟨N.new, own', Y.placed Y.space (fun _ _ => rfl) (Or.inl N.new) (fun h => N.new h.used) P hr hv hentry
    (fun p _ => N.kept p) N.changed N.booked htable (fun s hs => ?_) fun off => hcontents off off.isLt⟩
  unfold Released at hrel
  by_cases hsw : Swapped (entry m r (vpn va))
  · rw [hrel, if_pos hsw] at hs
    have hne : s ≠ swapIdOf (entry m r (vpn va)) := by
      rintro rfl
      rw [Function.update_self] at hs
      cases hs
    rw [Function.update_of_ne hne] at hs
    exact ⟨hs, fun _ => hne.symm⟩
  · rw [hrel, if_neg hsw] at hs
    exact ⟨hs, fun h => absurd h hsw⟩

/-- **alloc_page_helper** at an address where no page is, nor in the swap area. -/
theorem Tidy.helper (Y : Tidy m own) (hr : own r = .root) (hv : vpn va < userPages)
    (hempty : ¬ Filled m r (vpn va)) (hroom : m.kernMemCurr + 3 * 4096 ≤ 2 ^ 64) :
    ¬ (own (allocPageHelper va r m).1).Used ∧ ∃ own', Placed r (vpn va) (allocPageHelper va r m).1
      (fun _ => 0#8) m own (allocPageHelper va r m).2 own' := by
  have hentry := fun h => hempty (Or.inl h)
  obtain ⟨own', P, M⟩ := allocPageHelper_made Y.space hr hv hentry hroom
  refine ⟨M.new, own', Y.placed Y.space (fun _ _ => rfl) (Or.inl M.new) (fun h => M.new h.used) P hr hv hentry
    (fun p _ => M.kept p) M.changed M.booked M.rest.shmTable (fun s hs => ?_) fun off => ?_⟩
  · rw [M.rest.swapPageStatus] at hs
    exact ⟨hs, fun h => absurd (Or.inr h) hempty⟩
  · rw [pageOf_of_present P.present P.target]
    exact M.zero off off.isLt

/-- **Evictions** concern private pages, and programs see nothing of them. -/
theorem Tidy.evicts (Y : Tidy m own) (S' : SpaceOk m' own') (E : Evicts X m own m' own') :
    Unseen m own m' own' := by
  have S := Y.space
  have hsame {x : ℕ} (h : own x ∉ X) : own' x = own x := by
    by_contra hne
    exact h (E.owners x hne).2
  have hdata {x y w : ℕ} (h : own' x = .data y w) (hX : own x ∈ X ∨ Owner.data y w ∈ X) : False := by
    have hx : own' x = own x := by
      by_contra hne
      rw [(E.owners x hne).1] at h
      cases h
    have hold := hx.symm.trans h
    have hX : Owner.data y w ∈ X := hX.elim (fun h => hold ▸ h) id
    obtain ⟨hy, hw, -, -, ht⟩ := Y.data hold
    have hfree := E.freed hy hw hX
    rw [ht, h] at hfree
    cases hfree
  have F := E.frame
  refine ⟨⟨{z | Owner.data z.1 z.2 ∈ X}, {p | own p ∈ X}, ⟨S', fun x hx _ => hsame hx, fun x hx hX => E.untouched x hx hX,
    fun hx _ hv hz => F.entry hx hv hz, fun hx _ hv _ hoff => E.contents hx hv _ hoff, fun h h' => absurd ((F.root _).1 h') h,
    fun h h' => absurd ((F.root _).2 h) h', fun h hX => (hdata h hX).elim, fun x h hk => ?_, Booked.same (fun x h => ?_) E.curr,
    fun s hs => ?_⟩, fun p hp => E.only _ hp⟩, F.root, fun x j => ?_, E.shm, fun x v hx hv => ?_⟩
  · by_cases hne : own' x = own x
    · exact h (hne ▸ hk)
    · rw [(E.owners x hne).1] at hk
      cases hk
  · by_cases hne : own' x = own x
    · rwa [hne]
    · rw [(E.owners x hne).1]
      exact nofun
  · rcases (E.slots s).1 hs with h | ⟨x, v, hx, hv, hX, hid⟩
    · refine Or.inl ⟨h, fun x v hx hz hv hsw => ?_⟩
      exact absurd (E.swapped hx hv (hz.resolve_left fun h => h ((F.root x).2 hx))).1 hsw.1
    · exact Or.inr ⟨x, v, (F.root x).2 hx, hv, (E.swapped hx hv hX).2.1, hid⟩
  · by_cases hne : own' x = own x
    · rw [hne]
    · obtain ⟨h1, h2⟩ := E.owners x hne
      obtain ⟨y, w, h3⟩ := E.only _ h2
      rw [h1, h3]
      exact iff_of_false nofun nofun
  · by_cases hX : Owner.data x v ∈ X
    · obtain ⟨hp, hs, hl⟩ := E.swapped hx hv hX
      have hns : ¬ Shared (entry m x v) := fun hsh => by
        obtain ⟨j, -, ho⟩ := S.shm.place hx hv hsh
        refine hl fun k _ _ hlist => ?_
        have := hlist.owner
        rw [← hlist.kva, ho] at this
        cases this
      refine cell_eq (iff_of_false (fun h => hs.1 h.1) hns) (iff_of_true (Or.inr hs) (Or.inl hp)) fun off hoff => ?_
      exact E.contents hx hv off hoff
    · exact cell_eq (F.entry hx hv hX).shared (F.entry hx hv hX).filled fun off hoff => E.contents hx hv off hoff

/-- The search for a victim returns when the list is full. -/
theorem SpaceOk.swapOut_some (S : SpaceOk m own) (h : ¬ m.activePageCount < maxAllowablePages) :
    ∃ x, swapOut m = some x := by
  have T := S.clockTable (S.active.all_valid h) (not_lt.1 h)
  obtain ⟨k, hk⟩ := exists_stops maxAllowablePages m.clockHead (accessed m)
  obtain ⟨m1, hm1, -⟩ := clockScanN_spec T hk
  rw [clockScanN_eq] at hm1
  unfold swapOut
  rw [hm1]
  exact ⟨_, rfl⟩

/-- **add_to_active_list** returns. -/
theorem SpaceOk.addToActiveList_some (S : SpaceOk m own) (pa va : ℕ) (pid : ℤ) (r : ℕ) :
    ∃ ok m', addToActiveList pa va pid r m = some (ok, m') := by
  unfold addToActiveList
  dsimp only
  split
  · split
    · exact ⟨_, _, rfl⟩
    · exact ⟨_, _, rfl⟩
  · rename_i hfull
    obtain ⟨⟨res, m1⟩, h⟩ := S.swapOut_some hfull
    rw [h]
    cases res <;> exact ⟨_, _, rfl⟩

/-- **A private page in memory enters the list of active pages.** -/
theorem Tidy.track (Y : Tidy m own) (hr : own r = .root) (hv : vpn va < userPages) (hpriv : Private m r (vpn va) q)
    (hunlisted : Unlisted m own r (vpn va)) (pid : ℤ) :
    ∃ ok m' own', addToActiveList (kva2pa q) va pid r m = some (ok, m') ∧ Unseen m own m' own' := by
  have S := Y.space
  obtain ⟨-, hp, hs, ht⟩ := hpriv
  have hq : own q = .data r (vpn va) := by
    rw [← ht]
    exact (S.target_held hr hv hp).elim And.left fun ⟨_, _, h⟩ => absurd h hs
  have hk : pa2kva (kva2pa q) = q := pa2kva_kva2pa (S.heap.isPage (by rw [hq]; exact nofun))
  obtain ⟨a, ha⟩ := slot_of_present hp
  rw [← getPte_vpn] at ha
  obtain ⟨ok, m', h⟩ := S.addToActiveList_some (kva2pa q) va pid r
  obtain ⟨own', X, S', E, -, -⟩ := addToActiveList_spec S hr hv ha hp (by rw [hk]; exact ht) (by rw [hk]; exact hq)
    hunlisted h
  exact ⟨ok, m', own', h, Y.evicts S' E⟩

/-- **A new address space.** -/
theorem Tidy.spawn (Y : Tidy m own) (hroom : m.kernMemCurr + 4096 ≤ 2 ^ 64) :
    Effect ∅ ∅ m own (newSpace m) (withRoot own (allocPage 1 m).1) ∧ ¬ (own (allocPage 1 m).1).Used ∧
      (newSpace m).shmTable = m.shmTable := by
  have S := Y.space
  have N := newSpace_spawned S hroom
  generalize (allocPage 1 m).1 = q at *
  generalize newSpace m = m1 at *
  have hback {x : ℕ} {o : Owner} (ho : o ≠ .root) (h : withRoot own q x = o) : own x = o := by
    by_cases hx : x = q
    · rw [hx, withRoot_self] at h
      exact absurd h.symm ho
    · rwa [withRoot_ne hx] at h
  have hne {x : ℕ} (h : (own x).Used) : x ≠ q := by
    rintro rfl
    exact N.new h
  refine ⟨⟨N.space, fun x _ h => ?_, fun x hx _ => N.untouched x hx id, fun hx _ hv _ => N.frame.entry hx hv id,
    fun hx _ hv _ hoff => pageOf_frame S N.frame N.untouched hx hv id (fun _ => id) N.rest.swapStartSec
      (fun _ _ _ => by rw [N.rest.sd]) hoff, fun {x v} h h' hv => ?_, fun {x v p} h h' => ?_, fun h hin => ?_,
    fun x h hk => h (hback nofun hk), N.booked, fun s hs => Or.inl ⟨N.rest.swapPageStatus ▸ hs, fun x v hx h => ?_⟩⟩,
    N.new, N.rest.shmTable⟩
  · rcases h with h | h
    · exact withRoot_ne (hne h.used)
    · by_cases hx : x = q
      · rw [hx, withRoot_self] at h
        exact h.elim
      · exact withRoot_ne hx
  · obtain rfl : x = q := by
      by_contra hx
      exact h ((withRoot_ne hx).symm.trans h')
    exact N.empty v hv
  · exact absurd ((withRoot_ne (hne (by rw [h]; exact ⟨nofun, nofun⟩))).trans h) h'
  · exact hin.elim (absurd · id) (absurd · id)
  · rcases h with h | h
    · exact absurd ((withRoot_ne (hne (by rw [hx]; exact ⟨nofun, nofun⟩))).trans hx) h
    · exact absurd h id

/-- **The end of an address space.** -/
theorem Tidy.exit (Y : Tidy m own) (hr : own r = .root) (L : LowIndices m r) :
    ∃ m' own', freeAllPages r r m = some m' ∧ Effect ∅ {p | OwnedBy m own r p} m own m' own' ∧
      (∀ x, own' x = .root ↔ own x = .root ∧ x ≠ r) ∧ TornDown m own r m' ∧ Ended m own r m' own' := by
  have S := Y.space
  obtain ⟨m', own', heq, D, E⟩ := L.ended S hr
  have C : Cut m own r m' own' := ⟨E.gone, E.kept, D.mem⟩
  have hroot (x : ℕ) : own' x = .root ↔ own x = .root ∧ x ≠ r := ⟨C.root, fun h => C.root' S hr h.1 h.2⟩
  refine ⟨m', own', heq, ⟨E.space, fun p hp _ => E.kept p hp, fun p hp hH a ha => C.page_mem S hr hp.used.1 hH ha,
    fun hx hx' hv _ => ?_, fun hx hx' hv _ hoff => E.contents hx ((hroot _).1 hx').2 hv hoff,
    fun h h' => absurd ((hroot _).1 h').1 h, fun {x v p} h h' hpriv => ?_, fun {p x v} h hin => ?_, fun p h hk => ?_,
    Booked.same (fun p h => ?_) E.store.curr, fun s hs => ?_⟩, hroot, D, E⟩
  · rw [E.entry hx ((hroot _).1 hx').2 hv]
    exact Like.refl _
  · obtain rfl : x = r := by
      by_contra hne
      exact h' ((hroot x).2 ⟨h, hne⟩)
    exact Or.inr (Or.inr (Or.inl ⟨v, hpriv⟩))
  · rcases hin with hin | hin
    · rw [E.gone p hin] at h
      cases h
    · exact absurd hin id
  · by_cases hp : OwnedBy m own r p
    · rw [E.gone p hp] at hk
      cases hk
    · exact h ((E.kept p hp).symm.trans hk)
  · by_cases hp : OwnedBy m own r p
    · rw [E.gone p hp]
      exact nofun
    · rwa [E.kept p hp]
  · obtain ⟨h1, h2⟩ := (D.swap s).1 hs
    refine Or.inl ⟨h1, fun x v hx h hv hsw hid => ?_⟩
    rcases h with h | h
    · obtain rfl : x = r := by
        by_contra hne
        exact h ((hroot x).2 ⟨hx, hne⟩)
      exact h2 ⟨v, hv, hsw, hid⟩
    · exact absurd h id

/-! ### Shared pages -/

/-- A slot has been made ready for address spaces to attach it. The frames in `H` are new. -/
structure Prepared (H : Set ℕ) (m : Memory) (own : ℕ → Owner) (m' : Memory) (own' : ℕ → Owner) (i : ℕ) : Prop where
  space : SpaceOk m' own'
  keep : ∀ p, p ∉ H → own' p = own p
  new : ∀ p ∈ H, ¬ (own p).Used ∧ own' p = .shm i
  mem : ∀ p, (own p).Held → ∀ a, InPage p a → m'.mem a = m.mem a
  entry : ∀ {x v}, own x = .root → v < userPages → Like (entry m x v) (entry m' x v)
  contents : ∀ {x v off}, own x = .root → v < userPages → off < 4096 → pageOf m' x v off = pageOf m x v off
  booked : Booked m own m' own'
  status : m'.swapPageStatus = m.swapPageStatus

/-- **An address space attaches a slot.** -/
theorem Prepared.attach {H : Set ℕ} {m1 : Memory} {own1 : ℕ → Owner} (Y : Tidy m own) (P : Prepared H m own m1 own1 i)
    (A : Attached m1 own1 m' own' r i) (hempty : ¬ Filled m r (shmVpn i)) :
    Effect {(r, shmVpn i)} H m own m' own' ∧ (∀ x, own' x = .root ↔ own x = .root) ∧
      (∀ p j, own' p = .pipe j ↔ own p = .pipe j) ∧ cell m' r (shmVpn i) = .shared i := by
  have hnone {x : ℕ} : own x ≠ .data r (shmVpn i) := fun h => hempty (Or.inl (Y.present_of_data h))
  have hback {x : ℕ} (h : own' x ≠ own1 x) : ¬ (own' x).Held := fun hh => hh.not_isTable (A.changed x h).isTable
  have hused {x : ℕ} (h : (own x).Used) : x ∉ H := fun hx => (P.new x hx).1 h
  have hkeep {x : ℕ} (h : (own x).Used) : own' x = own x := by
    rw [A.kept x (by rw [P.keep x (hused h)]; exact h), P.keep x (hused h)]
  have hroot (x : ℕ) : own' x = .root ↔ own x = .root := by
    rw [A.frame.root x]
    by_cases hx : x ∈ H
    · rw [(P.new x hx).2]
      exact iff_of_false nofun fun h => (P.new x hx).1 (by rw [h]; exact ⟨nofun, nofun⟩)
    · rw [P.keep x hx]
  have hroot1 {x : ℕ} (h : own x = .root) : own1 x = .root := (A.frame.root x).1 ((hroot x).2 h)
  have hz {x v : ℕ} (h : (x, v) ∉ ({(r, shmVpn i)} : Set (ℕ × ℕ))) :
      Owner.data x v ∉ ({.data r (shmVpn i)} : Set Owner) := fun hx => h (by cases hx; rfl)
  refine ⟨⟨A.space, fun x hx h => ?_, fun x hx _ a ha => ?_, fun hx _ hv h => ?_, fun hx _ hv h hoff => ?_,
    fun h h' => absurd ((hroot _).1 h') h, fun h h' => absurd ((hroot _).2 h) h', fun {x y w} h hin => ?_, fun x h hk => ?_,
    P.booked.trans A.booked, fun s hs => Or.inl ⟨?_, fun x v hx h _ hsw => ?_⟩⟩, hroot, fun x j => ?_,
    cell_shared A.shared⟩
  · rcases h with h | h
    · exact hkeep h.used
    · by_contra hne
      exact hback (fun he => hne (he.trans (P.keep x hx))) h
  · have hx1 : own1 x = own x := P.keep x (hused hx.used)
    refine (A.untouched x (by rw [hx1]; exact hx) (by rw [hx1]; exact fun h => hnone h) a ha).trans (P.mem x hx a ha)
  · exact (P.entry hx hv).trans (A.frame.entry (hroot1 hx) hv (hz h))
  · refine (pageOf_frame P.space A.frame A.untouched (hroot1 hx) hv (hz h) (fun _ => nofun) A.start
      (fun _ _ _ => by rw [A.sd]) hoff).trans (P.contents hx hv hoff)
  · -- the attached page is no private one
    have hx1 : own1 x = .data y w := by
      by_contra hne
      exact hback (fun he => hne (he.symm.trans h)) (by rw [h]; trivial)
    by_cases hx : x ∈ H
    · rw [(P.new x hx).2] at hx1
      cases hx1
    · rw [P.keep x hx] at hx1
      rcases hin with hin | hin
      · exact absurd hin hx
      · cases hin
        exact absurd hx1 hnone
  · by_cases he : own' x = own1 x
    · rw [he] at hk
      by_cases hx : x ∈ H
      · rw [(P.new x hx).2] at hk
        cases hk
      · exact h ((P.keep x hx).symm.trans hk)
    · have := A.changed x he
      rw [hk] at this
      exact this
  · rw [← P.status, ← A.status]
    exact hs
  · rcases h with h | h
    · exact absurd ((hroot x).2 hx) h
    · cases h
      exact absurd (Or.inr hsw) hempty
  · constructor
    · intro h
      have hx1 : own1 x = .pipe j := by
        by_contra hne
        exact hback (fun he => hne (he.symm.trans h)) (by rw [h]; trivial)
      by_cases hx : x ∈ H
      · rw [(P.new x hx).2] at hx1
        cases hx1
      · rwa [P.keep x hx] at hx1
    · exact fun h => (hkeep (by rw [h]; exact ⟨nofun, nofun⟩)).trans h

/-- Nothing has to be made ready for a slot that has a page. -/
theorem Tidy.prepared (Y : Tidy m own) (i : ℕ) : Prepared ∅ m own m own i :=
  ⟨Y.space, fun _ _ => rfl, fun _ h => absurd h id, fun _ _ _ _ => rfl, fun _ _ => Like.refl _, fun _ _ _ => rfl,
    Booked.same (fun _ h => h) rfl, rfl⟩

theorem pageOf_mem (hmem : m'.mem = m.mem) (hsd : m'.sd = m.sd) (hstart : m'.swapStartSec = m.swapStartSec) (r v off : ℕ) :
    pageOf m' r v off = pageOf m r v off := by
  unfold pageOf
  rw [entry_mem hmem, hmem, hsd, swapOffset_of_start hstart]

/-- A free slot gets a page. -/
theorem Tidy.newSlot (Y : Tidy m own) (hi : i < shmMaxNum) (hfree : ¬ (m.shmTable i).valid) (key : ℤ)
    (hroom : m.kernMemCurr + 4096 ≤ 2 ^ 64) :
    ∃ own', Prepared {(allocPage 1 m).1} m own (giveSlot i key (allocPage 1 m).1 (allocPage 1 m).2) own' i := by
  have S := Y.space
  obtain ⟨S1, F1, U1, hu, hpage, -⟩ := S.alloc hroom
  have R1 := allocPage_rest 1 m
  have B := S.heap.booked hroom (o := .shm i) ⟨nofun, nofun⟩
  generalize (allocPage 1 m).1 = q at *
  generalize (allocPage 1 m).2 = m1 at *
  have S2 : SpaceOk (giveSlot i key q m1) _ := S1.giveSlot hi (by rw [R1.shmTable]; exact hfree) (Function.update_self q .kernel own)
  rw [Function.update_idem] at S2
  refine ⟨_, S2, fun p hp => Function.update_of_ne hp _ _, fun p hp => ?_, fun p hp a ha => U1 p hp id a ha,
    fun {x v} hx hv => ?_, fun {x v off} hx hv hoff => ?_, ⟨B.old, B.fresh⟩, R1.swapPageStatus⟩
  · cases hp
    exact ⟨hu, Function.update_self _ _ _⟩
  · rw [show entry (giveSlot i key q m1) x v = entry m1 x v from entry_mem rfl x v]
    exact F1.entry hx hv id
  · rw [show pageOf (giveSlot i key q m1) x v off = pageOf m1 x v off from pageOf_mem rfl rfl rfl x v off]
    exact pageOf_frame S F1 U1 hx hv id (fun _ => id) R1.swapStartSec (fun _ _ _ => by rw [R1.sd]) hoff

/-- **An address space detaches a slot**: the frame of the slot is in `H` if this was the last one. -/
theorem Tidy.shmDt (Y : Tidy m own) (hr : own r = .root) (hi : i < shmMaxNum) (hs : Shared (entry m r (shmVpn i))) :
    ∃ own' H, Effect {(r, shmVpn i)} H m own (shmPageDt (shmVaBase + i * 4096) r m) own' ∧
      (∀ x, own' x = .root ↔ own x = .root) ∧ (∀ p j, own' p = .pipe j ↔ own p = .pipe j) ∧
      cell (shmPageDt (shmVaBase + i * 4096) r m) r (shmVpn i) = .none ∧
      (shmPageDt (shmVaBase + i * 4096) r m).shmTable = Function.update m.shmTable i (detached (m.shmTable i)) ∧
      ((m.shmTable i).refCount ≠ 1 ∧ H = ∅ ∨ (m.shmTable i).refCount = 1 ∧ ∀ p ∈ H, own p = .shm i) := by
  have S := Y.space
  obtain ⟨a, ha⟩ := slot_of_present hs.1
  obtain ⟨S1, F1, U1, he1⟩ := S.detach hr hi hs ha
  have hp := S.shm.target_own hr hi hs
  obtain ⟨-, hvalid, -⟩ := S.shm.owned _ i hp
  rw [shmPageDt_shared S hr hi hs ha hp]
  generalize target (entry m r (shmVpn i)) = p at hp
  have hz {x v : ℕ} (h : (x, v) ∉ ({(r, shmVpn i)} : Set (ℕ × ℕ))) :
      Owner.data x v ∉ ({.data r (shmVpn i)} : Set Owner) := fun hx => h (by cases hx; rfl)
  have hnone {x : ℕ} : own x ≠ .data r (shmVpn i) := fun h => (Y.data h).2.2.2.1 hs
  have hswap (x v : ℕ) (hx : own x = .root) (h : own x ≠ .root ∨ (x, v) ∈ ({(r, shmVpn i)} : Set (ℕ × ℕ)))
      (hsw : Swapped (entry m x v)) : False := by
    rcases h with h | h
    · exact h hx
    · cases h
      exact hsw.1 hs.1
  by_cases hone : (m.shmTable i).refCount = 1
  · rw [if_pos hone]
    obtain ⟨S2, F2⟩ := S1.dropSlot (p := p) hi (by rw [detach_slot]; exact hvalid) hp (by
      rw [detach_slot]
      exact Int.sub_eq_zero.2 hone)
    obtain ⟨S3, F3, U3⟩ := S2.free (p := p) (Function.update_self _ _ _)
    rw [Function.update_idem] at S3 F3
    have hne {x : ℕ} {o : Owner} (ho : o ≠ .shm i) (h : own x = o) : Function.update own p .free x = o :=
      (Function.update_of_ne (fun e => ho (by rw [← h, e, hp])) _ _).trans h
    have hback {x : ℕ} {o : Owner} (ho : o ≠ .free) (h : Function.update own p .free x = o) : own x = o := by
      by_cases hx : x = p
      · rw [hx, Function.update_self] at h
        exact absurd h.symm ho
      · rwa [Function.update_of_ne hx] at h
    have hpage {x : ℕ} (hx : own x = .root) : Function.update own p .kernel x = .root :=
      (Function.update_of_ne (fun e => by rw [e, hp] at hx; cases hx) _ _).trans hx
    have hlike {x v : ℕ} (hx : own x = .root) (hv : v < userPages) (hzx : (x, v) ∉ ({(r, shmVpn i)} : Set (ℕ × ℕ))) :=
      ((F1.entry hx hv (hz hzx)).trans (F2.entry hx hv nofun)).trans (F3.entry (hpage hx) hv id)
    refine ⟨_, {p}, ⟨S3, fun x hx _ => Function.update_of_ne hx _ _, fun x hx hxp b hb => ?_,
      fun hx _ hv h => hlike hx hv h, fun {x v off} hx _ hv h hoff => ?_,
      fun h h' => absurd (hback (o := .root) nofun h') h, fun h h' => absurd (hne (o := .root) nofun h) h',
      fun {x y w} h hin => ?_, fun x h hk => h (hback (o := .kernel) nofun hk),
      Booked.same (fun x h => ?_) (freePage_curr _ _), fun s hs' => Or.inl ⟨?_, fun x v hx h _ hsw _ => ?_⟩⟩,
      fun x => ⟨hback (o := .root) nofun, hne (o := .root) nofun⟩,
      fun x j => ⟨hback (o := .pipe j) nofun, hne (o := .pipe j) nofun⟩, cell_none (not_filled ?_), ?_,
      Or.inr ⟨hone, fun x hx => by rw [hx]; exact hp⟩⟩
    · refine (freePage_mem fun hpb => hxp ?_).trans (U1 x hx id b hb)
      exact inPage_unique (S.heap.aligned x hx.used.1) (S.heap.aligned p (by rw [hp]; exact nofun)) hb hpb
    · refine (pageOf_frame S2 F3 U3 (hpage hx) hv id (fun _ => id) (freePage_rest _ _).swapStartSec
        (fun _ _ _ => by rw [(freePage_rest _ _).sd]) hoff).trans ?_
      refine (pageOf_mem (m := detach i a m) rfl rfl rfl x v off).trans ?_
      exact pageOf_frame S F1 (U1.mono (Set.empty_subset _)) hx hv (hz h) (fun _ => nofun) rfl (fun _ _ _ => rfl) hoff
    · have hold := hback (o := .data y w) nofun h
      rcases hin with hin | hin
      · rw [hin, hp] at hold
        cases hold
      · cases hin
        exact absurd hold hnone
    · by_cases hx : x = p
      · rw [hx, Function.update_self]
        exact nofun
      · rwa [Function.update_of_ne hx]
    · rw [(freePage_rest _ _).swapPageStatus] at hs'
      exact hs'
    · exact hswap x v hx (h.imp_left fun h hx => h (hne (o := .root) nofun hx)) hsw
    · have h2 : entry (dropSlot i (detach i a m)) r (shmVpn i) = 0 := (entry_mem rfl r (shmVpn i)).trans he1
      have h3 := F3.entry (hpage hr) (shmVpn_lt hi) id
      rw [h2] at h3
      exact h3.eq_of_not_present not_present_zero
    · rw [(freePage_rest _ _).shmTable]
      unfold dropSlot
      rw [detach_slot]
      unfold detach detached
      rw [hone, hvalid]
      simp only [Function.update_idem]
      rfl
  · rw [if_neg hone]
    refine ⟨own, ∅, ⟨S1, fun _ _ _ => rfl, fun x hx _ b hb => U1 x hx id b hb, fun hx _ hv h => F1.entry hx hv (hz h),
      fun hx _ hv h hoff => ?_, fun h h' => absurd h' h, fun h h' => absurd h h', fun {x y w} h hin => ?_, fun _ h => h,
      Booked.same (fun _ h => h) rfl, fun s hs' => Or.inl ⟨hs', fun x v hx h _ hsw _ => hswap x v hx h hsw⟩⟩,
      fun _ => Iff.rfl, fun _ _ => Iff.rfl, cell_none (not_filled he1), ?_, Or.inl ⟨hone, rfl⟩⟩
    · exact pageOf_frame S F1 (U1.mono (Set.empty_subset _)) hx hv (hz h) (fun _ => nofun) rfl (fun _ _ _ => rfl) hoff
    · rcases hin with hin | hin
      · exact absurd hin id
      · cases hin
        exact absurd h hnone
    · unfold detach detached
      rw [decide_eq_true hone, Bool.and_true]

/-- **What shm_page_get has done** with the slot `i`: it was in use under the key, or it has got a page. -/
structure ShmGot (key : ℤ) (r i : ℕ) (H : Set ℕ) (m : Memory) (own : ℕ → Owner) (m' : Memory) (own' : ℕ → Owner) : Prop where
  effect : Effect {(r, shmVpn i)} H m own m' own'
  root : ∀ x, own' x = .root ↔ own x = .root
  pipe : ∀ p j, own' p = .pipe j ↔ own p = .pipe j
  cell : cell m' r (shmVpn i) = .shared i
  slot : (m.shmTable i).valid ∧ (m.shmTable i).key = key ∧ H = ∅ ∧
      m'.shmTable = Function.update m.shmTable i { m.shmTable i with refCount := (m.shmTable i).refCount + 1 } ∨
    ¬ (m.shmTable i).valid ∧ (∀ j < shmMaxNum, (m.shmTable j).valid → (m.shmTable j).key ≠ key) ∧
      (∀ q ∈ H, ¬ (own q).Used) ∧ ∃ pa, m'.shmTable = Function.update m.shmTable i ⟨key, (m.shmTable i).va, pa, 1, true⟩

/-- **shm_page_get**. -/
theorem Tidy.shmGet (Y : Tidy m own) (hr : own r = .root) (key : ℤ)
    (hempty : ∀ i, shmSlot key m = some i → ¬ Filled m r (shmVpn i)) (hroom : m.kernMemCurr + 3 * 4096 ≤ 2 ^ 64) :
    (shmSlot key m = none ∧ shmPageGet key r m = (0, m)) ∨
    ∃ i < shmMaxNum, shmSlot key m = some i ∧ (shmPageGet key r m).1 = shmVaBase + i * 4096 ∧
      ∃ H own', ShmGot key r i H m own (shmPageGet key r m).2 own' := by
  have S := Y.space
  rcases shmPageGet_cases key r m with
    ⟨i, hi, hslot, hv, hkey, heq⟩ | ⟨hno, ⟨i, hi, hslot, hv, heq⟩ | ⟨hslot, heq⟩⟩
  · have hne := hempty i hslot
    obtain ⟨own', A⟩ := S.attach hr hi hv (fun h => hne (Or.inl h)) (by omega)
    rw [heq]
    obtain ⟨E, hroot, hpipe, hcell⟩ := (Y.prepared i).attach Y A hne
    exact Or.inr ⟨i, hi, hslot, S.shm.va i hi, ∅, own', E, hroot, hpipe, hcell, Or.inl ⟨hv, hkey, rfl, A.table⟩⟩
  · have hne := hempty i hslot
    have hu := (S.alloc (by omega)).2.2.2.1
    obtain ⟨own1, P⟩ := Y.newSlot hi hv key (by omega)
    have hcurr := (allocPage_curr m 1 S.heap.curr_le.1 (by omega)).2
    have R1 := allocPage_rest 1 m
    rw [heq]
    generalize (allocPage 1 m).1 = q at *
    generalize (allocPage 1 m).2 = m1 at *
    have hused : (own r).Used := by
      rw [hr]
      exact ⟨nofun, nofun⟩
    have hr1 : own1 r = .root := (P.keep r fun h => (P.new r h).1 hused).trans hr
    have hentry : ¬ Present (entry (giveSlot i key q m1) r (shmVpn i)) := fun h =>
      hne (Or.inl ((P.entry hr (shmVpn_lt hi)).present.1 h))
    have hself : (giveSlot i key q m1).shmTable i = ⟨key, (m.shmTable i).va, kva2pa q, 0, true⟩ := by
      rw [giveSlot_slot, R1.shmTable]
    obtain ⟨own', A⟩ := P.space.attach hr1 hi (by rw [hself]) hentry (by show m1.kernMemCurr + _ ≤ _; omega)
    obtain ⟨E, hroot, hpipe, hcell⟩ := P.attach Y A hne
    refine Or.inr ⟨i, hi, hslot, S.shm.va i hi, {q}, own', E, hroot, hpipe, hcell, Or.inr ⟨hv, hno, fun x hx => ?_, kva2pa q, ?_⟩⟩
    · cases hx
      exact hu
    · rw [A.table, hself]
      unfold giveSlot
      rw [Function.update_idem, R1.shmTable]
      rfl
  · exact Or.inl ⟨hslot, heq⟩

theorem ShmGot.tidy {key : ℤ} {H : Set ℕ} (Y : Tidy m own) (G : ShmGot key r i H m own m' own') : Tidy m' own' := by
  rcases G.slot with ⟨hv, -, -, h⟩ | ⟨-, hno, -, pa, h⟩
  · -- the slot is in use as before
    have hkey (j : ℕ) : (m'.shmTable j).valid = (m.shmTable j).valid ∧ (m'.shmTable j).key = (m.shmTable j).key := by
      rw [h]
      by_cases hj : j = i
      · rw [hj, Function.update_self]
        exact ⟨rfl, rfl⟩
      · rw [Function.update_of_ne hj]
        exact ⟨rfl, rfl⟩
    refine Y.effect G.effect (fun j hj hvj => ?_) fun j hj k hk hvj hvk he => ?_
    · rw [(hkey j).1] at hvj
      have hold := Y.users j hj hvj
      rw [h]
      by_cases hji : j = i
      · rw [hji, Function.update_self]
        rw [hji] at hold
        exact Int.add_pos hold Int.one_pos
      · rwa [Function.update_of_ne hji]
    · rw [(hkey j).1] at hvj
      rw [(hkey k).1] at hvk
      rw [(hkey j).2, (hkey k).2] at he
      exact Y.keys j hj k hk hvj hvk he
  · -- no other slot has the key
    have hself : m'.shmTable i = ⟨key, (m.shmTable i).va, pa, 1, true⟩ := by
      rw [h, Function.update_self]
    have hother {j : ℕ} (hj : j ≠ i) : m'.shmTable j = m.shmTable j := by
      rw [h, Function.update_of_ne hj]
    refine Y.effect G.effect (fun j hj hvj => ?_) fun j hj k hk hvj hvk he => ?_
    · by_cases hji : j = i
      · rw [hji, hself]
        exact Int.one_pos
      · rw [hother hji] at hvj ⊢
        exact Y.users j hj hvj
    · by_cases hji : j = i
      · by_cases hki : k = i
        · rw [hji, hki]
        · rw [hji, hself, hother hki] at he
          rw [hother hki] at hvk
          exact absurd he.symm (hno k hk hvk)
      · rw [hother hji] at hvj he
        by_cases hki : k = i
        · rw [hki, hself] at he
          exact absurd he (hno j hj hvj)
        · rw [hother hki] at hvk he
          exact Y.keys j hj k hk hvj hvk he

/-- **What shm_page_dt leaves tidy.** -/
theorem Tidy.detached (Y : Tidy m own) {H : Set ℕ} (E : Effect {(r, shmVpn i)} H m own m' own')
    (htable : m'.shmTable = Function.update m.shmTable i (detached (m.shmTable i))) : Tidy m' own' := by
  have hold {j : ℕ} (hv : (m'.shmTable j).valid) : (m.shmTable j).valid ∧ (m'.shmTable j).key = (m.shmTable j).key := by
    rw [htable] at hv ⊢
    by_cases hj : j = i
    · rw [hj, Function.update_self] at hv ⊢
      exact ⟨(Bool.and_eq_true_iff.1 hv).1, rfl⟩
    · rw [Function.update_of_ne hj] at hv ⊢
      exact ⟨hv, rfl⟩
  refine Y.effect E (fun j hj hvj => ?_) fun j hj k hk hvj hvk he => ?_
  · have hpos := Y.users j hj (hold hvj).1
    rw [htable] at hvj ⊢
    by_cases hji : j = i
    · rw [hji, Function.update_self] at hvj ⊢
      rw [hji] at hpos
      have hne := of_decide_eq_true (Bool.and_eq_true_iff.1 hvj).2
      show 0 < (m.shmTable i).refCount - 1
      omega
    · rwa [Function.update_of_ne hji]
  · rw [(hold hvj).2, (hold hvk).2] at he
    exact Y.keys j hj k hk (hold hvj).1 (hold hvk).1 he

end calls

end RiscvKernel.Mm
