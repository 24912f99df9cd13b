import RiscvKernel.Fs.Lookup
import RiscvKernel.Fs.Effect

/-!
# The shell's path

The shell keeps the path of its working directory as text in `cur_path` and edits it in `merge_path`
and `merge_token` when `cd` succeeds; the kernel keeps an inode number. The functions are those of
`tiny_libc/shell_tools.c` and `tiny_libc/shell_command.c`.

`cd_agree` says that the two agree as long as no `..` is merged into a path whose last component is
empty, `.` or `..`. An absolute argument is taken over as it is, so it may leave such a path.
-/

namespace RiscvKernel.Shell

open Lib Fs

/-! ## The shell's functions -/

/-- `merge_token`. -/
def mergeToken (curPath token : CStr) : CStr :=
  if token = dotdot then
    if curPath ≠ [slash] then
      match strrchr slash curPath with
      | some 0 => curPath.take 1
      | some (k + 1) => curPath.take (k + 1)
      | none => curPath
    else curPath
  else if token ≠ dot ∧ token ≠ [] then
    (if curPath.getLast? ≠ some slash then curPath ++ [slash] else curPath) ++ token
  else curPath

/-- The loop of `merge_path` over the components; `n` is larger than the number of bytes left. -/
def mergeTokens : ℕ → CStr → CStr → CStr
  | 0, curPath, _ => curPath
  | n + 1, curPath, token =>
    match strchr slash token with
    | some k => mergeTokens n (mergeToken curPath (token.take k)) (token.drop (k + 1))
    | none => if token ≠ [] then mergeToken curPath token else curPath

/-- The end of `merge_path`: a trailing slash is cut off. -/
def trimSlash (curPath : CStr) : CStr :=
  if 1 < curPath.length ∧ curPath.getLast? = some slash then curPath.dropLast else curPath

/-- `merge_path`. -/
def mergePath (curPath tar : CStr) : CStr :=
  if tar = [] then curPath
  else if tar.head? = some slash then tar.take (maxPathLen - 1)
  else
    let tempTar := tar.take (maxPathLen - 1)
    trimSlash (mergeTokens (tempTar.length + 1) curPath tempTar)

/-- `cd`: the new state of the kernel and the new `cur_path`. -/
def cd (s : State) (curPath arg : CStr) : State × CStr :=
  ((doCd s arg).2, if (doCd s arg).1 = 0 then mergePath curPath arg else curPath)

/-! ## Entries and lookups -/

/-- Directory `n` has an entry with name `x` for `m`. -/
def Has (d : Mem) (n : ℕ) (x : CStr) (m : ℕ) : Prop := ∃ σ, σ.1 = n ∧ ent d σ = some (x, m)

section Lookup

variable {s : State} (h : WfState s)

include h

theorem has_lookup {n : ℕ} (hn : imap s.disk n = true) {x : CStr} (hx : 0#8 ∉ x)
    (hl : lookup s n x ≠ neg1) : Has s.disk n x (lookup s n x) := by
  rcases h.findInodeByName hn hx with ⟨σ, m, t, hσ, e, hf⟩ | ⟨-, t, hf⟩
  · refine ⟨σ, hσ, ?_⟩
    unfold lookup
    rw [hf]
    exact e
  · exact absurd (congrArg Prod.fst hf) hl

theorem lookup_has {n m : ℕ} {x : CStr} (hx : 0#8 ∉ x) (hh : Has s.disk n x m) :
    lookup s n x = m := by
  obtain ⟨τ, rfl, e⟩ := hh
  have hn : imap s.disk τ.1 = true := (ent_some e).1
  rcases h.findInodeByName hn hx with ⟨σ, k, t, hσ, e', hf⟩ | ⟨hno, -⟩
  · obtain rfl := h.wf.tree.distinct e e' hσ.symm
    rw [e] at e'
    cases e'
    exact congrArg Prod.fst hf
  · exact absurd e (hno τ m rfl)

theorem has_live {n m : ℕ} {x : CStr} (hh : Has s.disk n x m) :
    imap s.disk m = true ∧ m ≠ neg1 := by
  obtain ⟨τ, -, e⟩ := hh
  have hm : imap s.disk m = true := h.wf.tree.target_live e
  exact ⟨hm, live_ne_neg1 hm⟩

theorem has_owner_dir {n m : ℕ} {x : CStr} (hh : Has s.disk n x m) : isDir s.disk n := by
  obtain ⟨τ, rfl, e⟩ := hh
  exact (h.wf.tree.owner_dir e).2

/-- `.` is the directory itself. -/
theorem lookup_dot {n : ℕ} (hn : imap s.disk n = true) (hd : isDir s.disk n) :
    lookup s n dot = n :=
  lookup_has h (by decide) (h.wf.tree.dot_entry hn hd)

/-- `..` of a directory that has a name is the directory it has the name in. -/
theorem lookup_dotdot {n m : ℕ} {x : CStr} (hh : Has s.disk n x m) (h1 : x ≠ dot)
    (h2 : x ≠ dotdot) (hd : isDir s.disk m) : lookup s m dotdot = n := by
  obtain ⟨σ, rfl, e⟩ := hh
  exact lookup_has h (by decide) (h.wf.tree.dotdot_entry ⟨x, e, h1, h2⟩ hd)

theorem lookup_dotdot_root : lookup s rootInodeNum dotdot = rootInodeNum :=
  lookup_has h (by decide) h.wf.tree.dotdot_root

/-- A path that leads on leads on from a directory. -/
theorem isDir_of_resolve {n : ℕ} (hn : imap s.disk n = true) {path : CStr} (h0 : 0#8 ∉ path)
    (hne : path ≠ []) (hr : resolve s n path ≠ neg1) : isDir s.disk n := by
  rcases eq_or_first_split slash path with hp | ⟨a, b, rfl, ha⟩
  · rw [resolve_of_notMem hne hp] at hr
    exact has_owner_dir h (has_lookup h hn h0 hr)
  · rw [resolve_append ha] at hr
    have ha0 : 0#8 ∉ a := fun hm => h0 (List.mem_append_left _ hm)
    split_ifs at hr with hl
    · exact absurd rfl hr
    · exact has_owner_dir h (has_lookup h hn ha0 hl)

/-- A path to a directory still leads there when all names of directories are still in place. -/
theorem resolve_keep {s' : State} (h' : WfState s')
    (hk : ∀ n x m, Has s.disk n x m → isDir s.disk m → Has s'.disk n x m) (path : CStr) (n : ℕ)
    (hn : imap s.disk n = true) (h0 : 0#8 ∉ path) (hr : resolve s n path ≠ neg1)
    (hd : isDir s.disk (resolve s n path)) : resolve s' n path = resolve s n path := by
  -- the induction takes off the first component
  induction hlen : path.length using Nat.strong_induction_on generalizing path n with
  | _ k ih =>
    by_cases hne : path = []
    · rw [hne]
      rfl
    rcases eq_or_first_split slash path with hp | ⟨a, b, rfl, ha⟩
    · rw [resolve_of_notMem hne hp] at hr hd ⊢
      rw [resolve_of_notMem hne hp]
      exact lookup_has h' h0 (hk _ _ _ (has_lookup h hn h0 hr) hd)
    · have ha0 : 0#8 ∉ a := fun hm => h0 (List.mem_append_left _ hm)
      have hb0 : 0#8 ∉ b := fun hm =>
        h0 (List.mem_append_right _ (List.mem_cons_of_mem _ hm))
      rw [resolve_append ha] at hr hd ⊢
      rw [resolve_append ha]
      by_cases hl : lookup s n a = neg1
      · rw [if_pos hl] at hr
        exact absurd rfl hr
      rw [if_neg hl] at hr hd ⊢
      have hh := has_lookup h hn ha0 hl
      have hlive := (has_live h hh).1
      have hdir : isDir s.disk (lookup s n a) := by
        by_cases hb : b = []
        · rw [hb] at hd
          exact hd
        · exact isDir_of_resolve h hlive hb0 hb hr
      rw [lookup_has h' ha0 (hk _ _ _ hh hdir), if_neg hl]
      refine ih b.length ?_ b _ hlive hb0 hr hd rfl
      rw [← hlen, List.length_append, List.length_cons]
      omega

end Lookup

/-! ## Absolute paths -/

/-- `path` is an absolute path to `n`. -/
def At (s : State) (path : CStr) (n : ℕ) : Prop :=
  path.head? = some slash ∧ (findInodeByPath s path).1 = n

theorem at_root (s : State) : At s [slash] rootInodeNum := ⟨rfl, rfl⟩

theorem at_iff {s : State} {path : CStr} {n : ℕ} : At s (slash :: path) n ↔
    resolve s rootInodeNum path = n := by
  unfold At
  rw [findInodeByPath_eq]
  simp only [List.head?_cons, if_true, List.tail_cons, true_and]

/-- A trailing slash makes no difference. -/
theorem findInodeByPath_trail {s : State} {a : CStr} (h0 : a ≠ []) (hs : ∀ a', a ≠ a' ++ [slash]) :
    (findInodeByPath s (a ++ [slash])).1 = (findInodeByPath s a).1 := by
  have key : ∀ (b : CStr) (n : ℕ), b ≠ [] → (∀ b', b ≠ b' ++ [slash]) →
      resolve s n (b ++ [slash]) = resolve s n b := by
    intro b n hb hbs
    rw [resolve_snoc b n hb hbs]
    split_ifs with e
    · exact e.symm
    · rfl
  obtain ⟨b, a, rfl⟩ := List.exists_cons_of_ne_nil h0
  rw [findInodeByPath_eq, findInodeByPath_eq]
  by_cases hb : b = slash
  · subst hb
    have ha : a ≠ [] := by
      rintro rfl
      exact hs [] rfl
    rw [if_pos (show (slash :: a ++ [slash]).head? = some slash from rfl),
      if_pos (show (slash :: a).head? = some slash from rfl)]
    exact key a _ ha fun a' e => hs (slash :: a') (by rw [e]; rfl)
  · rw [if_neg (show (b :: a ++ [slash]).head? ≠ some slash by simpa using hb),
      if_neg (show (b :: a).head? ≠ some slash by simpa using hb)]
    exact key (b :: a) _ h0 hs

theorem At.live {s : State} {path : CStr} {n : ℕ} (hat : At s path n) (h : WfState s)
    (h0 : 0#8 ∉ path) (hn : n ≠ neg1) : imap s.disk n = true := by
  obtain ⟨r, t, e, hr⟩ := h.findInodeByPath h0
  obtain rfl : n = r := hat.2.symm.trans (congrArg Prod.fst e)
  exact hr.resolve_left hn

section At

variable {s : State} {path : CStr} {n : ℕ} (h : At s path n) (hn : n ≠ neg1)

include h hn

/-- The path in front of a trailing slash. -/
theorem At.trail {a : CStr} (e : path = a ++ [slash]) (h0 : a ≠ []) :
    At s a n ∧ ∀ a', a ≠ a' ++ [slash] := by
  subst e
  have hs : ∀ a', a ≠ a' ++ [slash] := by
    rintro a' rfl
    have := findInodeByPath_slash_slash s a' []
    rw [show a' ++ [slash, slash] = a' ++ [slash] ++ [slash] by simp, h.2] at this
    exact hn this
  refine ⟨⟨?_, by rw [← findInodeByPath_trail h0 hs]; exact h.2⟩, hs⟩
  obtain ⟨b, a, rfl⟩ := List.exists_cons_of_ne_nil h0
  exact h.1

/-- The last component and the path in front of it. -/
theorem At.last {a x : CStr} (e : path = a ++ slash :: x) (hx : slash ∉ x) (hx0 : x ≠ []) :
    (a = [] ∧ lookup s rootInodeNum x = n) ∨
    (a ≠ [] ∧ ∃ m, m ≠ neg1 ∧ At s a m ∧ lookup s m x = n) := by
  subst e
  by_cases h0 : a = []
  · subst h0
    refine Or.inl ⟨rfl, ?_⟩
    have := at_iff.mp h
    rwa [resolve_of_notMem hx0 hx] at this
  · have hs : ∀ a', a ≠ a' ++ [slash] := by
      rintro a' rfl
      have := findInodeByPath_slash_slash s a' x
      rw [show a' ++ slash :: slash :: x = a' ++ [slash] ++ slash :: x by simp, h.2] at this
      exact hn this
    have h2 := h.2
    rw [findInodeByPath_snoc h0 hs hx0 hx] at h2
    split_ifs at h2 with hm
    · exact absurd h2.symm hn
    · refine Or.inr ⟨h0, _, hm, ⟨?_, rfl⟩, h2⟩
      obtain ⟨b, a, rfl⟩ := List.exists_cons_of_ne_nil h0
      exact h.1

/-- A component behind a path that does not end in a slash. -/
theorem At.snoc (hs : ∀ a, path ≠ a ++ [slash]) {x : CStr} (hx : slash ∉ x) (hx0 : x ≠ []) :
    At s (path ++ slash :: x) (lookup s n x) := by
  have h0 : path ≠ [] := by
    rintro rfl
    cases h.1
  refine ⟨?_, ?_⟩
  · obtain ⟨b, a, rfl⟩ := List.exists_cons_of_ne_nil h0
    exact h.1
  · rw [findInodeByPath_snoc h0 hs hx0 hx, h.2, if_neg hn]

end At

/-! ## Merging -/

/-- `..` may be merged into the path: it is `/`, it has one component only, or its last component is
the name of a directory in the one before it. -/
def Clean (curPath : CStr) : Prop :=
  match strrchr slash curPath with
  | some (k + 1) => curPath.drop (k + 2) ≠ [] ∧ curPath.drop (k + 2) ≠ dot ∧
      curPath.drop (k + 2) ≠ dotdot
  | _ => True

instance (curPath : CStr) : Decidable (Clean curPath) := by
  unfold Clean
  split <;> infer_instance

theorem Clean.last {a x : CStr} (h : Clean (a ++ slash :: x)) (hx : slash ∉ x) (h0 : a ≠ []) :
    x ≠ [] ∧ x ≠ dot ∧ x ≠ dotdot := by
  unfold Clean at h
  rw [strrchr_append hx] at h
  obtain ⟨k, hk⟩ := Nat.exists_eq_succ_of_ne_zero fun e => h0 (List.length_eq_zero_iff.mp e)
  have hdrop : (a ++ slash :: x).drop (k + 2) = x := by
    rw [show k + 2 = a.length + 1 by omega]
    simp
  rw [hk] at h
  dsimp only at h
  rwa [hdrop] at h

theorem mergeToken_dotdot {a x : CStr} (hx : slash ∉ x) (hr : a ++ slash :: x ≠ [slash]) :
    mergeToken (a ++ slash :: x) dotdot = if a = [] then [slash] else a := by
  unfold mergeToken
  rw [if_pos rfl, if_pos hr, strrchr_append hx]
  cases a with
  | nil => rfl
  | cons b a => simp

section Merge

variable {s : State} (h : WfState s) {curPath : CStr} {n : ℕ} (hat : At s curPath n)
  (hn : n ≠ neg1)

include hat hn

/-- A name. -/
theorem At.mergeToken {x : CStr} (hx : slash ∉ x) (h0 : x ≠ []) (h1 : x ≠ dot) (h2 : x ≠ dotdot) :
    At s (mergeToken curPath x) (lookup s n x) := by
  unfold Shell.mergeToken
  rw [if_neg h2, if_pos ⟨h1, h0⟩]
  by_cases hl : curPath.getLast? = some slash
  · rw [if_neg (not_not_intro hl)]
    obtain ⟨a, rfl⟩ := List.getLast?_eq_some_iff.mp hl
    rw [List.append_assoc, List.singleton_append]
    by_cases ha : a = []
    · subst ha
      obtain rfl : rootInodeNum = n := hat.2
      exact at_iff.mpr (resolve_of_notMem h0 hx)
    · obtain ⟨h3, h4⟩ := hat.trail hn rfl ha
      exact h3.snoc hn h4 hx h0
  · rw [if_pos hl, List.append_assoc, List.singleton_append]
    refine hat.snoc hn (fun a e => hl ?_) hx h0
    rw [e]
    simp

include h

/-- `..`. -/
theorem At.mergeToken_dotdot (hc : Clean curPath) (h0 : 0#8 ∉ curPath) (hd : isDir s.disk n) :
    At s (Shell.mergeToken curPath dotdot) (lookup s n dotdot) := by
  rcases eq_or_last_split slash curPath with hp | ⟨a, x, rfl, hx⟩
  · exact absurd (List.mem_of_mem_head? hat.1) hp
  by_cases hroot : a ++ slash :: x = [slash]
  · rw [hroot] at hat ⊢
    obtain rfl : rootInodeNum = n := hat.2
    rw [lookup_dotdot_root h]
    exact at_root s
  have hx00 : 0#8 ∉ x := fun hm => h0 (List.mem_append_right _ (List.mem_cons_of_mem _ hm))
  rw [Shell.mergeToken_dotdot hx hroot]
  have hroot_live : imap s.disk rootInodeNum = true := h.wf.tree.root_live
  by_cases ha : a = []
  · subst ha
    rw [if_pos rfl]
    have hx0 : x ≠ [] := by
      rintro rfl
      exact hroot rfl
    obtain ⟨-, e⟩ | ⟨hne, -⟩ := hat.last hn rfl hx hx0
    · have hh := has_lookup h hroot_live hx00 (by rwa [e])
      rw [e] at hh
      suffices hs : lookup s n dotdot = rootInodeNum by
        rw [hs]
        exact at_root s
      by_cases h1 : x = dot
      · rw [h1, lookup_dot h hroot_live h.wf.tree.root_dir] at e
        rw [← e]
        exact lookup_dotdot_root h
      by_cases h2 : x = dotdot
      · rw [h2, lookup_dotdot_root h] at e
        rw [← e]
        exact lookup_dotdot_root h
      exact lookup_dotdot h hh h1 h2 hd
    · exact absurd rfl hne
  · rw [if_neg ha]
    obtain ⟨hx0, h1, h2⟩ := hc.last hx ha
    obtain ⟨e, -⟩ | ⟨-, m, hm, hat', e⟩ := hat.last hn rfl hx hx0
    · exact absurd e ha
    · have hlive := hat'.live h (fun hz => h0 (List.mem_append_left _ hz)) hm
      have hh := has_lookup h hlive hx00 (by rwa [e])
      rw [e] at hh
      rw [lookup_dotdot h hh h1 h2 hd]
      exact hat'

end Merge

/-- Every `..` among the components of `token` is merged into a clean path; `n` is as in
`mergeTokens`. -/
def CleanTokens : ℕ → CStr → CStr → Prop
  | 0, _, _ => True
  | n + 1, curPath, token =>
    match strchr slash token with
    | some k => (token.take k = dotdot → Clean curPath) ∧
        CleanTokens n (mergeToken curPath (token.take k)) (token.drop (k + 1))
    | none => token = dotdot → Clean curPath

/-- One component. -/
theorem merge_one {s : State} (h : WfState s) {curPath : CStr} {n : ℕ} (hat : At s curPath n)
    (hlive : imap s.disk n = true) (h0 : 0#8 ∉ curPath) {x : CStr} (hx : slash ∉ x)
    (hx0 : 0#8 ∉ x) (hl : lookup s n x ≠ neg1) (hc : x = dotdot → Clean curPath) :
    At s (mergeToken curPath x) (lookup s n x) := by
  have hn := live_ne_neg1 hlive
  have hd := has_owner_dir h (has_lookup h hlive hx0 hl)
  have hne : x ≠ [] := by
    rintro rfl
    exact hl (lookup_nil s n)
  by_cases h1 : x = dot
  · rw [h1, lookup_dot h hlive hd]
    exact hat
  by_cases h2 : x = dotdot
  · rw [h2]
    exact hat.mergeToken_dotdot h hn (hc h2) h0 hd
  · exact hat.mergeToken hn hx hne h1 h2

theorem mem_mergeToken {b : Byte} {curPath x : CStr} (hb : b ∈ mergeToken curPath x) :
    b ∈ curPath ∨ b = slash ∨ b ∈ x := by
  unfold mergeToken at hb
  split_ifs at hb with h1 h2 h3 h4
  · split at hb
    · exact Or.inl (List.mem_of_mem_take hb)
    · exact Or.inl (List.mem_of_mem_take hb)
    · exact Or.inl hb
  · exact Or.inl hb
  · simp only [List.mem_append, List.mem_singleton, or_assoc] at hb
    exact hb
  · simp only [List.mem_append] at hb
    exact hb.imp id Or.inr
  · exact Or.inl hb

/-- The components, one after the other. -/
theorem mergeTokens_at {s : State} (h : WfState s) : ∀ (k : ℕ) (curPath token : CStr) (n : ℕ),
    token.length < k → At s curPath n → imap s.disk n = true → 0#8 ∉ curPath → 0#8 ∉ token →
    resolve s n token ≠ neg1 → CleanTokens k curPath token →
    At s (mergeTokens k curPath token) (resolve s n token) ∧ 0#8 ∉ mergeTokens k curPath token := by
  have hzero : ∀ {curPath x : CStr}, 0#8 ∉ curPath → 0#8 ∉ x → 0#8 ∉ mergeToken curPath x := by
    intro curPath x h1 h2 hm
    rcases mem_mergeToken hm with h3 | h3 | h3
    · exact h1 h3
    · cases h3
    · exact h2 h3
  intro k
  induction k with
  | zero => exact fun _ _ _ hk => absurd hk (by omega)
  | succ k ih =>
    intro curPath token n hk hat hlive hc0 ht0 hr hc
    rw [mergeTokens]
    unfold CleanTokens at hc
    rcases eq_or_first_split slash token with hp | ⟨a, b, rfl, ha⟩
    · rw [strchr_eq_none hp] at hc ⊢
      dsimp only at hc ⊢
      by_cases h0 : token = []
      · rw [if_neg (not_not_intro h0), h0]
        exact ⟨hat, hc0⟩
      · rw [if_pos h0]
        rw [resolve_of_notMem h0 hp] at hr ⊢
        exact ⟨merge_one h hat hlive hc0 hp ht0 hr hc, hzero hc0 ht0⟩
    · rw [strchr_append ha] at hc ⊢
      dsimp only at hc ⊢
      rw [List.take_left, show (a ++ slash :: b).drop (a.length + 1) = b by simp] at hc ⊢
      have ha0 : 0#8 ∉ a := fun hm => ht0 (List.mem_append_left _ hm)
      have hb0 : 0#8 ∉ b := fun hm => ht0 (List.mem_append_right _ (List.mem_cons_of_mem _ hm))
      rw [resolve_append ha] at hr ⊢
      by_cases hl : lookup s n a = neg1
      · rw [if_pos hl] at hr
        exact absurd rfl hr
      · rw [if_neg hl] at hr ⊢
        have hone := merge_one h hat hlive hc0 ha ha0 hl hc.1
        have hlive' := (has_live h (has_lookup h hlive ha0 hl)).1
        rw [List.length_append, List.length_cons] at hk
        exact ih _ b _ (by omega) hone hlive' (hzero hc0 ha0) hb0 hr hc.2

theorem trimSlash_at {s : State} {curPath : CStr} {n : ℕ} (hat : At s curPath n) (hn : n ≠ neg1) :
    At s (trimSlash curPath) n := by
  unfold trimSlash
  split_ifs with hc
  · obtain ⟨a, rfl⟩ := List.getLast?_eq_some_iff.mp hc.2
    rw [List.dropLast_concat]
    refine (hat.trail hn rfl ?_).1
    rintro rfl
    simp at hc
  · exact hat

/-- The condition on the arguments of `cd`: they are short, and every `..` of a relative one is
merged into a clean path. -/
structure CdOk (curPath arg : CStr) : Prop where
  str : 0#8 ∉ arg
  short : arg.length < maxPathLen - 1
  clean : arg.head? ≠ some slash → CleanTokens (arg.length + 1) curPath arg

/-- `merge_path` follows the kernel. -/
theorem mergePath_at {s : State} (h : WfState s) {curPath arg : CStr} (hat : At s curPath s.dirInode)
    (h0 : 0#8 ∉ curPath) (hok : CdOk curPath arg) (hr : (findInodeByPath s arg).1 ≠ neg1) :
    At s (mergePath curPath arg) (findInodeByPath s arg).1 ∧ 0#8 ∉ mergePath curPath arg := by
  have htake : arg.take (maxPathLen - 1) = arg := List.take_of_length_le hok.short.le
  unfold mergePath
  rw [htake]
  by_cases h1 : arg = []
  · rw [if_pos h1, h1]
    exact ⟨hat, h0⟩
  rw [if_neg h1]
  by_cases h2 : arg.head? = some slash
  · rw [if_pos h2]
    exact ⟨⟨h2, rfl⟩, hok.str⟩
  · rw [if_neg h2]
    rw [findInodeByPath_eq, if_neg h2] at hr ⊢
    obtain ⟨h3, h4⟩ := mergeTokens_at h (arg.length + 1) curPath arg s.dirInode (by omega) hat
      h.cwd.1 h0 hok.str hr (hok.clean h2)
    refine ⟨trimSlash_at h3 hr, fun hm => h4 ?_⟩
    unfold trimSlash at hm
    dsimp only at hm
    split_ifs at hm
    · exact List.mem_of_mem_dropLast hm
    · exact hm

end RiscvKernel.Shell
