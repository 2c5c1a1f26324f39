import Mathlib.Data.List.Basic
import Simplefs.SetMultiLevel

/-! # Where a variant's file goes

For every key but `""`, `"."` and `".."`, `filepath.Join(path, url.PathEscape(k))` is a
distinct file directly under `filepath.Clean(path)` (`joinedFP_injective`, `dir_joinedFP`).
-/
namespace Simplefs

/-- A single name of a path: not empty, no separator, neither `.` nor `..`. -/
def PathName (e : Bytes) : Prop := e ≠ [] ∧ separator ∉ e ∧ e ≠ utf8 "." ∧ e ≠ utf8 ".."

/-! ## `url.PathEscape` -/

/-- The bytes `url.PathEscape` writes for one byte. -/
def escapeByte (c : UInt8) : Bytes :=
  if shouldEscape c then [37, upperhex (c.toNat / 16), upperhex (c.toNat % 16)] else [c]

theorem pathEscape_nil : pathEscape [] = [] := rfl

theorem pathEscape_cons (c : UInt8) (s : Bytes) : pathEscape (c :: s) = escapeByte c ++ pathEscape s :=
  List.flatMap_cons _ _ _

theorem upperhex_inj : ∀ n < 16, ∀ m < 16, upperhex n = upperhex m → n = m := by decide

theorem upperhex_ne_separator : ∀ n < 16, upperhex n ≠ separator := by decide

theorem escapeByte_ne_nil (c : UInt8) : escapeByte c ≠ [] := by
  unfold escapeByte; split <;> simp

theorem escapeByte_append_inj {a b : UInt8} {x y : Bytes} (h : escapeByte a ++ x = escapeByte b ++ y) :
    a = b ∧ x = y := by
  have h37 : shouldEscape 37 = true := by decide
  unfold escapeByte at h
  by_cases ha : shouldEscape a <;> by_cases hb : shouldEscape b <;>
    simp only [ha, hb, if_true, Bool.false_eq_true, if_false, List.cons_append, List.nil_append,
      List.cons.injEq] at h
  · obtain ⟨-, hhi, hlo, rfl⟩ := h
    have hlt : a.toNat < 256 := UInt8.toNat_lt_size a
    have hlt' : b.toNat < 256 := UInt8.toNat_lt_size b
    have h₁ := upperhex_inj _ (by omega) _ (by omega) hhi
    have h₂ := upperhex_inj _ (Nat.mod_lt _ (by omega)) _ (Nat.mod_lt _ (by omega)) hlo
    refine ⟨UInt8.toNat.inj ?_, rfl⟩
    rw [← Nat.div_add_mod a.toNat 16, ← Nat.div_add_mod b.toNat 16, h₁, h₂]
  · exact absurd (h.1 ▸ h37) (by simp [hb])
  · exact absurd (h.1 ▸ h37) (by simp [ha])
  · exact h

theorem pathEscape_injective : Function.Injective pathEscape := by
  intro s
  induction s with
  | nil =>
    rintro (_ | ⟨c, t⟩) h
    · rfl
    · exact absurd h.symm (by simp [pathEscape_nil, pathEscape_cons, escapeByte_ne_nil])
  | cons a s ih =>
    rintro (_ | ⟨b, t⟩) h
    · exact absurd h (by simp [pathEscape_nil, pathEscape_cons, escapeByte_ne_nil])
    · rw [pathEscape_cons, pathEscape_cons] at h
      obtain ⟨rfl, hst⟩ := escapeByte_append_inj h
      rw [ih hst]

theorem separator_not_mem_pathEscape (s : Bytes) : separator ∉ pathEscape s := by
  induction s with
  | nil => simp [pathEscape_nil]
  | cons c s ih =>
    rw [pathEscape_cons, List.mem_append, not_or]
    refine ⟨?_, ih⟩
    have hlt : c.toNat < 256 := UInt8.toNat_lt_size c
    unfold escapeByte
    split
    · simp only [List.mem_cons, List.not_mem_nil, or_false, not_or]
      exact ⟨by decide, (upperhex_ne_separator _ (by omega)).symm,
        (upperhex_ne_separator _ (Nat.mod_lt _ (by omega))).symm⟩
    · rename_i hc
      rw [List.mem_singleton]
      rintro rfl
      exact hc (by decide)

theorem pathName_pathEscape {k : Bytes} :
    PathName (pathEscape k) ↔ k ≠ [] ∧ k ≠ utf8 "." ∧ k ≠ utf8 ".." := by
  have e₀ : pathEscape k ≠ pathEscape [] ↔ k ≠ [] := pathEscape_injective.ne_iff
  have e₁ : pathEscape k ≠ pathEscape (utf8 ".") ↔ k ≠ utf8 "." := pathEscape_injective.ne_iff
  have e₂ : pathEscape k ≠ pathEscape (utf8 "..") ↔ k ≠ utf8 ".." := pathEscape_injective.ne_iff
  rw [pathEscape_nil] at e₀
  rw [show pathEscape (utf8 ".") = utf8 "." by decide] at e₁
  rw [show pathEscape (utf8 "..") = utf8 ".." by decide] at e₂
  simp only [PathName, separator_not_mem_pathEscape, not_false_eq_true, true_and, e₀, e₁, e₂]

/-! ## `filepath.Clean` as a fold -/

/-- One element of `cleanElements`: the stack after it. -/
def cleanStep (rooted : Bool) (acc : List Bytes) (e : Bytes) : List Bytes :=
  if e = [] ∨ e = utf8 "." then acc
  else if e = utf8 ".." then
    match acc with
    | top :: acc' => if top = utf8 ".." then top :: top :: acc' else acc'
    | [] => if rooted then [] else [e]
  else e :: acc

theorem cleanElements_cons (rooted : Bool) (acc : List Bytes) (e : Bytes) (rest : List Bytes) :
    cleanElements rooted acc (e :: rest) = cleanElements rooted (cleanStep rooted acc e) rest := by
  cases acc <;> simp only [cleanElements, cleanStep] <;> split_ifs <;> rfl

theorem cleanElements_eq_foldl (rooted : Bool) (acc xs : List Bytes) :
    cleanElements rooted acc xs = (xs.foldl (cleanStep rooted) acc).reverse := by
  induction xs generalizing acc with
  | nil => rfl
  | cons e xs ih => rw [cleanElements_cons, ih, List.foldl_cons]

theorem cleanStep_name {e : Bytes} (he : PathName e) (rooted : Bool) (acc : List Bytes) :
    cleanStep rooted acc e = e :: acc := by
  obtain ⟨h0, -, h1, h2⟩ := he
  simp [cleanStep, h0, h1, h2]

theorem cleanStep_nil (rooted : Bool) (acc : List Bytes) : cleanStep rooted acc [] = acc := by
  simp [cleanStep]

/-- A stack of `cleanElements`, top first: path names above `n` elements `..`, which only an
unrooted path keeps. -/
def CleanStack (rooted : Bool) (acc : List Bytes) : Prop :=
  ∃ names n, acc = names ++ List.replicate n (utf8 "..") ∧ (∀ x ∈ names, PathName x) ∧
    (rooted = true → n = 0)

section CleanStack

variable {rooted : Bool} {acc : List Bytes}

theorem dotdot_ne_nil : utf8 ".." ≠ [] := by decide

theorem cleanStep_dotdot (acc : List Bytes) : cleanStep rooted acc (utf8 "..") =
    match acc with
    | top :: acc' => if top = utf8 ".." then top :: top :: acc' else acc'
    | [] => if rooted then [] else [utf8 ".."] := by
  have h : utf8 ".." ≠ utf8 "." := by decide
  simp [cleanStep, dotdot_ne_nil, h]

theorem CleanStack.mem (h : CleanStack rooted acc) {x : Bytes} (hx : x ∈ acc) : x ≠ [] ∧ separator ∉ x := by
  obtain ⟨names, n, rfl, hnames, -⟩ := h
  rcases List.mem_append.mp hx with hx | hx
  · exact ⟨(hnames x hx).1, (hnames x hx).2.1⟩
  · rw [List.eq_of_mem_replicate hx]
    exact ⟨dotdot_ne_nil, by decide⟩

theorem CleanStack.step (h : CleanStack rooted acc) {e : Bytes} (he : separator ∉ e) :
    CleanStack rooted (cleanStep rooted acc e) := by
  obtain ⟨names, n, rfl, hnames, hn⟩ := h
  by_cases hskip : e = [] ∨ e = utf8 "."
  · unfold cleanStep; rw [if_pos hskip]
    exact ⟨names, n, rfl, hnames, hn⟩
  by_cases hup : e = utf8 ".."
  · subst hup
    cases names with
    | cons top names =>
      -- a path name on top is removed
      have htop : top ≠ utf8 ".." := (hnames top (List.mem_cons_self _ _)).2.2.2
      exact ⟨names, n, by simp [cleanStep_dotdot, htop], fun x hx => hnames x (List.mem_cons_of_mem _ hx), hn⟩
    | nil =>
      cases n with
      | zero =>
        cases rooted
        · exact ⟨[], 1, by simp [cleanStep_dotdot], by simp, by simp⟩
        · exact ⟨[], 0, by simp [cleanStep_dotdot], by simp, fun _ => rfl⟩
      | succ n =>
        -- `..` on `..` stays: the path is not rooted
        exact ⟨[], n + 2, by simp [cleanStep_dotdot, List.replicate_succ], by simp,
          fun hr => absurd (hn hr) (by omega)⟩
  · have hname : PathName e := ⟨fun h => hskip (.inl h), he, fun h => hskip (.inr h), hup⟩
    rw [cleanStep_name hname]
    refine ⟨e :: names, n, rfl, fun x hx => ?_, hn⟩
    rcases List.mem_cons.mp hx with rfl | hx
    · exact hname
    · exact hnames x hx

theorem CleanStack.foldl (h : CleanStack rooted acc) {xs : List Bytes} (hxs : ∀ x ∈ xs, separator ∉ x) :
    CleanStack rooted (xs.foldl (cleanStep rooted) acc) := by
  induction xs generalizing acc with
  | nil => exact h
  | cons e xs ih =>
    exact ih (h.step (hxs e (List.mem_cons_self _ _))) fun x hx => hxs x (List.mem_cons_of_mem _ hx)

theorem foldl_cleanStep_names {names : List Bytes} (h : ∀ x ∈ names, PathName x) (acc : List Bytes) :
    names.foldl (cleanStep rooted) acc = names.reverse ++ acc := by
  induction names generalizing acc with
  | nil => rfl
  | cons x names ih =>
    rw [List.foldl_cons, cleanStep_name (h x (List.mem_cons_self _ _)),
      ih (fun y hy => h y (List.mem_cons_of_mem _ hy))]
    simp

theorem foldl_cleanStep_dotdots (k n : Nat) :
    (List.replicate n (utf8 "..")).foldl (cleanStep false) (List.replicate k (utf8 "..")) =
      List.replicate (k + n) (utf8 "..") := by
  induction n generalizing k with
  | zero => rfl
  | succ n ih =>
    have hstep : cleanStep false (List.replicate k (utf8 "..")) (utf8 "..") = List.replicate (k + 1) (utf8 "..") := by
      cases k <;> simp [cleanStep_dotdot, List.replicate_succ]
    rw [List.replicate_succ, List.foldl_cons, hstep, ih]
    congr 1
    omega

theorem CleanStack.foldl_reverse (h : CleanStack rooted acc) : acc.reverse.foldl (cleanStep rooted) [] = acc := by
  obtain ⟨names, n, rfl, hnames, hn⟩ := h
  have hdots : (List.replicate n (utf8 "..")).foldl (cleanStep rooted) [] = List.replicate n (utf8 "..") := by
    cases rooted
    · simpa using foldl_cleanStep_dotdots 0 n
    · rw [hn rfl]; rfl
  rw [List.reverse_append, List.reverse_replicate, List.foldl_append, hdots,
    foldl_cleanStep_names (fun x hx => hnames x (List.mem_reverse.mp hx)), List.reverse_reverse]

end CleanStack

/-! ## Splitting on the separator -/

theorem splitOn_append_separator (x y : Bytes) :
    (x ++ separator :: y).splitOn separator = x.splitOn separator ++ y.splitOn separator := by
  induction x with
  | nil => simp [List.splitOn, List.splitOnP_cons]
  | cons a x ih =>
    simp only [List.splitOn, List.cons_append, List.splitOnP_cons] at ih ⊢
    split
    · rw [ih]; rfl
    · obtain ⟨z, zs, hz⟩ := List.exists_cons_of_ne_nil (List.splitOnP_ne_nil (· == separator) x)
      rw [ih, hz]; rfl

theorem splitOn_of_not_mem {e : Bytes} (h : separator ∉ e) : e.splitOn separator = [e] :=
  List.splitOnP_eq_single _ _ fun _ hx hsep => h (beq_iff_eq.mp hsep ▸ hx)

theorem not_mem_of_mem_splitOn {l x : Bytes} (h : x ∈ l.splitOn separator) : separator ∉ x := by
  induction l generalizing x with
  | nil =>
    rw [List.splitOn_nil, List.mem_singleton] at h
    simp [h]
  | cons a l ih =>
    simp only [List.splitOn, List.splitOnP_cons] at h ih
    split at h
    · rcases List.mem_cons.mp h with rfl | h
      · simp
      · exact ih h
    · rename_i ha
      obtain ⟨z, zs, hz⟩ := List.exists_cons_of_ne_nil (List.splitOnP_ne_nil (· == separator) l)
      rw [hz] at h ih
      rcases List.mem_cons.mp h with rfl | h
      · rintro (_ | ⟨_, hz'⟩)
        · exact ha (beq_self_eq_true _)
        · exact ih (List.mem_cons_self _ _) hz'
      · exact ih (List.mem_cons_of_mem _ h)

/-! ## The elements `filepath.Clean` keeps -/

/-- The elements `filepath.Clean` keeps of `path`, in order. -/
def cleanedElements (path : Bytes) : List Bytes :=
  cleanElements (path.head? = some separator) [] (path.splitOn separator)

theorem clean_eq (path : Bytes) : clean path =
    if path.head? = some separator then separator :: [separator].intercalate (cleanedElements path)
    else if [separator].intercalate (cleanedElements path) = [] then utf8 "."
    else [separator].intercalate (cleanedElements path) := rfl

theorem cleanedElements_stack (path : Bytes) :
    CleanStack (path.head? = some separator) (cleanedElements path).reverse := by
  rw [cleanedElements, cleanElements_eq_foldl, List.reverse_reverse]
  exact (CleanStack.foldl ⟨[], 0, rfl, by simp, fun _ => rfl⟩) fun _ => not_mem_of_mem_splitOn

theorem mem_cleanedElements {path x : Bytes} (hx : x ∈ cleanedElements path) : x ≠ [] ∧ separator ∉ x :=
  (cleanedElements_stack path).mem (List.mem_reverse.mpr hx)

theorem foldl_cleanedElements (path : Bytes) :
    (cleanedElements path).foldl (cleanStep (path.head? = some separator)) [] = (cleanedElements path).reverse := by
  simpa using (cleanedElements_stack path).foldl_reverse

theorem intercalate_append_singleton {E : List Bytes} (hE : E ≠ []) (e : Bytes) :
    [separator].intercalate (E ++ [e]) = [separator].intercalate E ++ separator :: e := by
  induction E with
  | nil => exact absurd rfl hE
  | cons x E ih =>
    cases E with
    | nil => simp [List.intercalate]
    | cons y E =>
      have h := ih (List.cons_ne_nil _ _)
      simp only [List.intercalate, List.cons_append, List.intersperse_cons₂, List.flatten_cons] at h ⊢
      rw [h]; simp

theorem intercalate_cons (x : Bytes) (E : List Bytes) : ∃ t, [separator].intercalate (x :: E) = x ++ t := by
  cases E with
  | nil => exact ⟨[], by simp [List.intercalate]⟩
  | cons y E =>
    exact ⟨separator :: [separator].intercalate (y :: E), by simp [List.intercalate, List.intersperse_cons₂]⟩

/-! ## `filepath.Join` of a path name -/

theorem cleanedElements_append_name {root e : Bytes} (hroot : root ≠ []) (he : PathName e) :
    cleanedElements (root ++ separator :: e) = cleanedElements root ++ [e] := by
  rw [cleanedElements, cleanedElements, List.head?_append_of_ne_nil _ hroot, splitOn_append_separator,
    splitOn_of_not_mem he.2.1, cleanElements_eq_foldl, cleanElements_eq_foldl, List.foldl_append,
    List.foldl_cons, List.foldl_nil, cleanStep_name he, List.reverse_cons]

theorem clean_name {e : Bytes} (he : PathName e) : clean e = e := by
  have hhead : ¬ e.head? = some separator := fun h => he.2.1 (List.mem_of_mem_head? h)
  have hel : cleanedElements e = [e] := by
    rw [cleanedElements, splitOn_of_not_mem he.2.1, cleanElements_eq_foldl, List.foldl_cons,
      List.foldl_nil, cleanStep_name he]
    rfl
  rw [clean_eq, if_neg hhead, hel]
  simp [List.intercalate, he.1]

theorem cleanedElements_nil : cleanedElements [] = [] := rfl

/-- What `filepath.Join(root, name)` puts before a path name: nothing, or `/` for a rooted
`root`, when no element of `root` is kept; otherwise the cleaned root and a separator. -/
def namePrefix (root : Bytes) : Bytes :=
  if cleanedElements root = [] then (if root.head? = some separator then [separator] else [])
  else clean root ++ [separator]

theorem join_name {e : Bytes} (he : PathName e) (root : Bytes) : join root e = namePrefix root ++ e := by
  by_cases hroot : root = []
  · subst hroot
    simp [join, he.1, clean_name he, namePrefix, cleanedElements_nil]
  · rw [join, if_pos hroot, clean_eq, cleanedElements_append_name hroot he,
      List.head?_append_of_ne_nil _ hroot, namePrefix]
    by_cases hE : cleanedElements root = []
    · have he0 := he.1
      rw [hE]
      split_ifs <;> simp_all [List.intercalate]
    · obtain ⟨x, E, hxE⟩ := List.exists_cons_of_ne_nil hE
      obtain ⟨t, ht⟩ := intercalate_cons x E
      have hx := (mem_cleanedElements (hxE ▸ List.mem_cons_self x E)).1
      rw [if_neg hE, intercalate_append_singleton hE, clean_eq, hxE, ht]
      split_ifs <;> simp_all

/-! ## The parent of a joined path name -/

theorem dir_append_name {x e : Bytes} (he : separator ∉ e) :
    dir (x ++ separator :: e) = clean (x ++ [separator]) := by
  unfold dir
  congr 1
  have hpos : ∀ a ∈ e.reverse, decide (a ≠ separator) = true := fun a ha => by
    simpa using fun h : a = separator => he (h ▸ List.mem_reverse.mp ha)
  rw [List.reverse_append, List.reverse_cons, List.append_assoc, List.dropWhile_append_of_pos hpos]
  simp

theorem dir_of_not_mem {e : Bytes} (he : separator ∉ e) : dir e = clean [] := by
  unfold dir
  rw [List.dropWhile_eq_nil_iff.mpr fun a ha => by
    simpa using fun h : a = separator => he (h ▸ List.mem_reverse.mp ha)]
  rfl

theorem foldl_cleanStep_empties {r : Bool} {l : List Bytes} (h : ∀ x ∈ l, x = []) (acc : List Bytes) :
    l.foldl (cleanStep r) acc = acc := by
  induction l generalizing acc with
  | nil => rfl
  | cons x l ih =>
    rw [List.foldl_cons, h x (List.mem_cons_self _ _), cleanStep_nil,
      ih fun y hy => h y (List.mem_cons_of_mem _ hy)]

theorem cleanElements_around {path : Bytes} {r : Bool} (hr : r = decide (path.head? = some separator))
    {pre post : List Bytes} (hpre : ∀ x ∈ pre, x = []) (hpost : ∀ x ∈ post, x = []) :
    cleanElements r [] (pre ++ cleanedElements path ++ post) = cleanedElements path := by
  rw [cleanElements_eq_foldl, List.foldl_append, List.foldl_append, foldl_cleanStep_empties hpre, hr,
    foldl_cleanedElements, foldl_cleanStep_empties hpost, List.reverse_reverse]

theorem splitOn_cons_separator (y : Bytes) :
    (separator :: y).splitOn separator = [] :: y.splitOn separator := by
  simpa using splitOn_append_separator [] y

theorem splitOn_append_separator_nil (x : Bytes) :
    (x ++ [separator]).splitOn separator = x.splitOn separator ++ [[]] := by
  simpa using splitOn_append_separator x []

theorem clean_clean_append_separator {root : Bytes} (hE : cleanedElements root ≠ []) :
    clean (clean root ++ [separator]) = clean root := by
  obtain ⟨x, E, hxE⟩ := List.exists_cons_of_ne_nil hE
  obtain ⟨t, ht⟩ := intercalate_cons x E
  have hx := mem_cleanedElements (hxE ▸ List.mem_cons_self x E)
  have hsplit : ([separator].intercalate (cleanedElements root)).splitOn separator = cleanedElements root :=
    List.splitOn_intercalate _ separator (fun l hl => (mem_cleanedElements hl).2) hE
  have hI : [separator].intercalate (cleanedElements root) ≠ [] := by rw [hxE, ht]; simp [hx.1]
  have hIhead : ¬ ([separator].intercalate (cleanedElements root) ++ [separator]).head? = some separator := by
    rw [hxE, ht, List.append_assoc, List.head?_append_of_ne_nil _ hx.1]
    exact fun h => hx.2 (List.mem_of_mem_head? h)
  have hempty : ∀ y ∈ ([[]] : List Bytes), y = [] := by simp
  generalize hIeq : [separator].intercalate (cleanedElements root) = I at hsplit hI hIhead
  rw [clean_eq root, hIeq]
  by_cases hP : root.head? = some separator
  · have hel : cleanedElements (separator :: I ++ [separator]) = cleanedElements root := by
      rw [cleanedElements, List.cons_append, splitOn_cons_separator, splitOn_append_separator_nil, hsplit,
        show ([] : Bytes) :: (cleanedElements root ++ [[]]) = [[]] ++ cleanedElements root ++ [[]] by simp]
      exact cleanElements_around (by rw [decide_eq_true List.head?_cons, decide_eq_true hP]) hempty hempty
    simp only [hP, if_true]
    rw [clean_eq, hel, if_pos (by simp), hIeq]
  · have hel : cleanedElements (I ++ [separator]) = cleanedElements root := by
      rw [cleanedElements, splitOn_append_separator_nil, hsplit, ← List.nil_append (cleanedElements root)]
      exact cleanElements_around (by rw [decide_eq_false hIhead, decide_eq_false hP]) (by simp) hempty
    simp only [hP, if_false, if_neg hI]
    rw [clean_eq, hel, if_neg hIhead, hIeq, if_neg hI]

theorem clean_clean (path : Bytes) : clean (clean path) = clean path := by
  by_cases hE : cleanedElements path = []
  · rw [clean_eq path, hE]
    split_ifs with h₁ h₂
    · decide
    · decide
    · exact absurd rfl h₂
  obtain ⟨x, E, hxE⟩ := List.exists_cons_of_ne_nil hE
  obtain ⟨t, ht⟩ := intercalate_cons x E
  have hx := mem_cleanedElements (hxE ▸ List.mem_cons_self x E)
  have hsplit : ([separator].intercalate (cleanedElements path)).splitOn separator = cleanedElements path :=
    List.splitOn_intercalate _ separator (fun l hl => (mem_cleanedElements hl).2) hE
  have hI : [separator].intercalate (cleanedElements path) ≠ [] := by rw [hxE, ht]; simp [hx.1]
  have hIhead : ¬ ([separator].intercalate (cleanedElements path)).head? = some separator := by
    rw [hxE, ht, List.head?_append_of_ne_nil _ hx.1]
    exact fun h => hx.2 (List.mem_of_mem_head? h)
  have hempty : ∀ y ∈ ([] : List Bytes), y = [] := by simp
  generalize hIeq : [separator].intercalate (cleanedElements path) = I at hsplit hI hIhead
  rw [clean_eq path, hIeq]
  by_cases hP : path.head? = some separator
  · have hel : cleanedElements (separator :: I) = cleanedElements path := by
      rw [cleanedElements, splitOn_cons_separator, hsplit,
        show ([] : Bytes) :: cleanedElements path = [[]] ++ cleanedElements path ++ [] by simp]
      refine cleanElements_around ?_ (by simp) hempty
      rw [decide_eq_true List.head?_cons, decide_eq_true hP]
    simp only [hP, if_true]
    rw [clean_eq, hel, if_pos (by simp), hIeq]
  · have hel : cleanedElements I = cleanedElements path := by
      rw [cleanedElements, hsplit]
      have hr : decide (I.head? = some separator) = decide (path.head? = some separator) := by
        rw [decide_eq_false hIhead, decide_eq_false hP]
      simpa using @cleanElements_around path _ hr [] [] hempty hempty
    simp only [hP, if_false, if_neg hI]
    rw [clean_eq, hel, if_neg hIhead, hIeq, if_neg hI]

theorem clean_ne_nil (path : Bytes) : clean path ≠ [] := by
  rw [clean_eq]
  split_ifs with h₁ h₂
  · exact List.cons_ne_nil _ _
  · decide
  · exact h₂

theorem clean_head_separator {path : Bytes} (h : (clean path).head? = some separator) :
    path.head? = some separator := by
  by_contra hP
  rw [clean_eq, if_neg hP] at h
  split_ifs at h with hI
  · exact absurd h (by decide)
  · cases hE : cleanedElements path with
    | nil => exact hI (by rw [hE]; rfl)
    | cons x E =>
      obtain ⟨t, ht⟩ := intercalate_cons x E
      have hx := mem_cleanedElements (hE ▸ List.mem_cons_self x E)
      rw [hE, ht, List.head?_append_of_ne_nil _ hx.1] at h
      exact hx.2 (List.mem_of_mem_head? h)

theorem resolve_head_separator {path : Bytes} (h : (Fs.resolve path).head? = some separator) :
    path.head? = some separator := by
  unfold Fs.resolve at h
  split_ifs at h
  · cases h
  · exact clean_head_separator h

@[simp] theorem resolve_join (dir name : Bytes) : Fs.resolve (join dir name) = join dir name := by
  unfold join
  split_ifs <;> simp [Fs.resolve, clean_ne_nil, clean_clean]

@[simp] theorem resolve_joinedFP (p : Provider) (key : Bytes) : Fs.resolve (p.joinedFP key) = p.joinedFP key :=
  resolve_join _ _

theorem dir_join_name {e : Bytes} (he : PathName e) (root : Bytes) :
    dir (join root e) = clean root ∧ join root e ≠ clean root := by
  rw [join_name he, namePrefix]
  by_cases hE : cleanedElements root = []
  · have hC := clean_eq root
    have hnil : [separator].intercalate ([] : List Bytes) = [] := rfl
    rw [hE, hnil] at hC
    by_cases hP : root.head? = some separator
    · simp only [hP, if_true] at hC
      rw [if_pos hE, if_pos hP, hC]
      refine ⟨?_, fun h => he.1 (List.append_cancel_left (h.trans (List.append_nil _).symm))⟩
      rw [show [separator] ++ e = [] ++ separator :: e from rfl, dir_append_name he.2.1]
      rfl
    · simp only [hP, if_false, if_true] at hC
      rw [if_pos hE, if_neg hP, hC, List.nil_append, dir_of_not_mem he.2.1]
      exact ⟨rfl, he.2.2.1⟩
  · rw [if_neg hE, List.append_assoc, List.singleton_append, dir_append_name he.2.1,
      clean_clean_append_separator hE]
    exact ⟨rfl, fun h => by simpa using congrArg List.length h⟩

namespace Provider

def layoutStart : Provider := (factory (utf8 "/c") [] 0 (-1) [] 0 ∅ 0).init

theorem joinedFP_injective (p : Provider) {k₁ k₂ : Bytes} (h₁ : k₁ ≠ [] ∧ k₁ ≠ utf8 "." ∧ k₁ ≠ utf8 "..")
    (h₂ : k₂ ≠ [] ∧ k₂ ≠ utf8 "." ∧ k₂ ≠ utf8 "..") (h : p.joinedFP k₁ = p.joinedFP k₂) : k₁ = k₂ := by
  rw [joinedFP, joinedFP, join_name (pathName_pathEscape.mpr h₁), join_name (pathName_pathEscape.mpr h₂)] at h
  exact pathEscape_injective (List.append_cancel_left h)

theorem dir_joinedFP (p : Provider) {k : Bytes} (hk : k ≠ [] ∧ k ≠ utf8 "." ∧ k ≠ utf8 "..") :
    dir (p.joinedFP k) = clean p.path ∧ p.joinedFP k ≠ clean p.path :=
  dir_join_name (pathName_pathEscape.mpr hk) p.path

/-- Under `/c`, the distinct keys `""` and `"."` both resolve to `/c` itself, and `".."` to
`/`, whose parent is not `/c`. -/
theorem dot_keys_leave_layout :
    layoutStart.joinedFP [] = utf8 "/c" ∧ layoutStart.joinedFP (utf8 ".") = utf8 "/c" ∧
      ([] : Bytes) ≠ utf8 "." ∧ layoutStart.joinedFP (utf8 "..") = utf8 "/" ∧
      clean layoutStart.path = utf8 "/c" ∧ dir (layoutStart.joinedFP (utf8 "..")) ≠ clean layoutStart.path := by
  decide

end Provider

end Simplefs
