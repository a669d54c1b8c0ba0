import Mathlib.Data.List.Basic
import ScriptBundler.Path

/-!
# Proofs/Resolution — every path has one spelling

    ..  ..  lib  util          steps up, then names
    └────┘  └────────▸ entered one after the other
    none from the root

Entering segments one after the other never leaves this form (`Path.Normal.enter`), and a path in it is
entered segment by segment as it stands (`Path.Normal.foldl_enter`).  So resolving is a projection onto
the paths in normal form, and a reference read in a resolved file leads where it leads when it is read
on from the segments before that file.
-/

namespace ScriptBundler.Path

variable {absolute : Bool} {s : List Char} {ss dir : List (List Char)}

/-! ## Segments -/

theorem segments_ne_nil (cs : List Char) : segments cs ≠ [] := by
  unfold segments
  split
  · simp
  · simp
  · split <;> simp

/-- A letter that is no slash belongs to the first segment. -/
theorem segments_cons_of_ne {c : Char} (h : c ≠ '/') (cs : List Char) :
    ∃ s ss, segments cs = s :: ss ∧ segments (c :: cs) = (c :: s) :: ss := by
  obtain ⟨s, ss, hss⟩ := List.exists_cons_of_ne_nil (segments_ne_nil cs)
  refine ⟨s, ss, hss, ?_⟩
  rw [segments, hss]
  exact fun hc => h hc

/-- A slash divides what is before it from what is behind. -/
theorem segments_append_slash (cs ds : List Char) :
    segments (cs ++ '/' :: ds) = segments cs ++ segments ds := by
  induction cs with
  | nil => rfl
  | cons c cs ih =>
    by_cases h : c = '/'
    · subst h
      simp [segments, ih]
    · obtain ⟨s, ss, hss, hc⟩ := segments_cons_of_ne h cs
      obtain ⟨t, ts, hts, hc'⟩ := segments_cons_of_ne h (cs ++ '/' :: ds)
      rw [ih, hss, List.cons_append] at hts
      obtain ⟨rfl, rfl⟩ := List.cons.inj hts
      rw [List.cons_append, hc', hc, List.cons_append]

theorem segments_of_not_mem (h : '/' ∉ s) : segments s = [s] := by
  induction s with
  | nil => rfl
  | cons c cs ih =>
    obtain ⟨hc, hcs⟩ := not_or.mp (mt List.mem_cons.mpr h)
    obtain ⟨t, ts, hts, heq⟩ := segments_cons_of_ne (Ne.symm hc) cs
    rw [ih hcs] at hts
    obtain ⟨rfl, rfl⟩ := List.cons.inj hts
    exact heq

/-- There is no slash in a segment. -/
theorem not_mem_of_mem_segments {cs : List Char} (h : s ∈ segments cs) : '/' ∉ s := by
  induction cs generalizing s with
  | nil =>
    obtain rfl := List.mem_singleton.mp h
    exact List.not_mem_nil
  | cons c cs ih =>
    by_cases hc : c = '/'
    · subst hc
      rcases List.mem_cons.mp h with rfl | h
      · exact List.not_mem_nil
      · exact ih h
    · obtain ⟨t, ts, hts, heq⟩ := segments_cons_of_ne hc cs
      rw [heq] at h
      rcases List.mem_cons.mp h with rfl | h
      · simpa [Ne.symm hc] using ih (s := t) (by simp [hts])
      · exact ih (by simp [hts, h])

/-- Segments are found again in what they are joined to. -/
theorem segments_join_false (hne : ss ≠ []) (h : ∀ s ∈ ss, '/' ∉ s) :
    segments (join false ss) = ss := by
  induction ss with
  | nil => exact absurd rfl hne
  | cons s ss ih =>
    obtain ⟨hs, hss⟩ := List.forall_mem_cons.mp h
    cases ss with
    | nil => simpa [join] using segments_of_not_mem hs
    | cons t ts =>
      have hjoin : join false (s :: t :: ts) = s ++ '/' :: join false (t :: ts) := by simp [join]
      rw [hjoin, segments_append_slash, segments_of_not_mem hs, ih (List.cons_ne_nil t ts) hss]
      rfl

theorem join_true (ss : List (List Char)) : join true ss = '/' :: join false ss := rfl

/-! ## Normal form -/

/-- The name of a file or of a directory. -/
structure Ordinary (s : List Char) : Prop where
  ne_nil : s ≠ []
  ne_here : s ≠ ['.']
  ne_up : s ≠ ['.', '.']
  not_mem : '/' ∉ s

/-- Steps up, none of them from the root, and then names. -/
def Normal (absolute : Bool) (ss : List (List Char)) : Prop :=
  ∃ n names, ss = List.replicate n ['.', '.'] ++ names ∧ (∀ s ∈ names, Ordinary s) ∧
    (absolute = true → n = 0)

/-- A path in normal form: a slash if it starts at the root, then segments in normal form with slashes
between them. -/
def IsNormal (path : String) : Prop :=
  ∃ absolute ss, path.toList = join absolute ss ∧ Normal absolute ss

/-- A name leads one directory down. -/
theorem enter_ordinary (h : Ordinary s) : enter absolute dir s = s :: dir := by
  unfold enter
  split
  · exact absurd rfl h.ne_nil
  · exact absurd rfl h.ne_here
  · exact absurd rfl h.ne_up
  · rfl

@[simp] theorem enter_nil : enter absolute dir [] = dir := rfl

namespace Normal

theorem nil : Normal absolute [] := ⟨0, [], rfl, by simp, fun _ => rfl⟩

/-- A name more keeps a path normal. -/
theorem concat (h : Normal absolute ss) (hs : Ordinary s) : Normal absolute (ss ++ [s]) := by
  obtain ⟨n, names, rfl, hnames, hn⟩ := h
  refine ⟨n, names ++ [s], by rw [List.append_assoc], fun t ht => ?_, hn⟩
  rcases List.mem_append.mp ht with ht | ht
  · exact hnames t ht
  · exact List.mem_singleton.mp ht ▸ hs

/-- The last segment is a name, or all are steps up. -/
theorem cases_concat (h : Normal absolute (ss ++ [s])) :
    (Ordinary s ∧ Normal absolute ss) ∨
      (absolute = false ∧ ∃ n, ss ++ [s] = List.replicate (n + 1) ['.', '.']) := by
  obtain ⟨n, names, heq, hnames, hn⟩ := h
  rcases List.eq_nil_or_concat names with rfl | ⟨names, t, rfl⟩
  · -- no names are left, so the last segment is one of the steps up
    right
    rw [List.append_nil] at heq
    cases n with
    | zero => simp at heq
    | succ n => exact ⟨Bool.eq_false_iff.mpr fun ha => absurd (hn ha) (Nat.succ_ne_zero n), n, heq⟩
  · left
    rw [List.concat_eq_append, ← List.append_assoc] at heq
    obtain ⟨rfl, hst⟩ := List.append_inj' heq rfl
    obtain rfl := List.singleton_inj.mp hst
    refine ⟨hnames s (by simp), n, names, rfl, fun t ht => hnames t (by simp [ht]), hn⟩

/-- **Entering a segment keeps the normal form.** -/
theorem enter (h : Normal absolute dir.reverse) (hs : '/' ∉ s) :
    Normal absolute (enter absolute dir s).reverse := by
  unfold Path.enter
  split
  · exact h
  · exact h
  · cases dir with
    | nil =>
      cases absolute with
      | false => exact ⟨1, [], rfl, by simp, fun h => absurd h Bool.false_ne_true⟩
      | true => exact .nil
    | cons last rest =>
      rw [List.reverse_cons] at h
      rcases h.cases_concat with ⟨hlast, hrest⟩ | ⟨rfl, n, hn⟩
      · -- back from a name
        dsimp only
        rw [if_pos hlast.ne_up]
        exact hrest
      · -- one more step up
        have hlast : last = ['.', '.'] := by
          refine List.eq_of_mem_replicate (n := n + 1) ?_
          rw [← hn]
          exact List.mem_append_right _ (List.mem_singleton_self last)
        dsimp only
        rw [if_neg (not_not.mpr hlast), if_neg Bool.false_ne_true, List.reverse_cons,
          List.reverse_cons, hn, ← List.replicate_succ']
        exact ⟨n + 2, [], (List.append_nil _).symm, by simp, fun h => absurd h Bool.false_ne_true⟩
  · rename_i hnil hhere hup
    rw [List.reverse_cons]
    exact h.concat ⟨hnil, hhere, hup, hs⟩

/-- What entering segments leads to is in normal form. -/
theorem foldl (h : Normal absolute dir.reverse) (hss : ∀ s ∈ ss, '/' ∉ s) :
    Normal absolute (ss.foldl (Path.enter absolute) dir).reverse := by
  induction ss generalizing dir with
  | nil => exact h
  | cons s ss ih =>
    obtain ⟨hs, hss⟩ := List.forall_mem_cons.mp hss
    exact ih (h.enter hs) hss

/-- Names lead down one after another. -/
theorem foldl_names (h : ∀ s ∈ ss, Ordinary s) :
    ss.foldl (Path.enter absolute) dir = ss.reverse ++ dir := by
  induction ss generalizing dir with
  | nil => rfl
  | cons s ss ih =>
    obtain ⟨hs, hss⟩ := List.forall_mem_cons.mp h
    rw [List.foldl_cons, enter_ordinary hs, ih hss]
    simp

/-- Steps up from a relative path are kept. -/
theorem foldl_ups (n : Nat) :
    (List.replicate n ['.', '.']).foldl (Path.enter false) [] = List.replicate n ['.', '.'] := by
  induction n with
  | zero => rfl
  | succ n ih =>
    rw [List.replicate_succ', List.foldl_append, ih, ← List.replicate_succ']
    cases n <;> rfl

/-- **Segments in normal form are entered as they stand.** -/
theorem foldl_enter (h : Normal absolute ss) : ss.foldl (Path.enter absolute) [] = ss.reverse := by
  obtain ⟨n, names, rfl, hnames, hn⟩ := h
  rw [List.foldl_append, foldl_names hnames, List.reverse_append, List.reverse_replicate]
  cases absolute with
  | false => rw [foldl_ups]
  | true =>
    rw [hn rfl]
    rfl

theorem not_mem (h : Normal absolute ss) : ∀ s ∈ ss, '/' ∉ s := by
  obtain ⟨n, names, rfl, hnames, -⟩ := h
  intro s hs
  rcases List.mem_append.mp hs with hs | hs
  · rw [List.eq_of_mem_replicate hs]
    decide
  · exact (hnames s hs).not_mem

theorem ne_nil (h : Normal absolute ss) : ∀ s ∈ ss, s ≠ [] := by
  obtain ⟨n, names, rfl, hnames, -⟩ := h
  intro s hs
  rcases List.mem_append.mp hs with hs | hs
  · rw [List.eq_of_mem_replicate hs]
    decide
  · exact (hnames s hs).ne_nil

/-- A path in normal form starts with a slash exactly if it starts at the root. -/
theorem isAbsolute_join (h : Normal absolute ss) : isAbsolute (join absolute ss) = absolute := by
  cases absolute with
  | true => rfl
  | false =>
    cases ss with
    | nil => rfl
    | cons s ss =>
      obtain ⟨c, cs, rfl⟩ := List.exists_cons_of_ne_nil (h.ne_nil s (by simp))
      have hc : c ≠ '/' := fun hc => h.not_mem (c :: cs) (by simp) (by simp [hc])
      have hhead : (join false ((c :: cs) :: ss)).head? = some c := by cases ss <;> simp [join]
      simp [isAbsolute, hhead, hc]

end Normal

/-! ## Joining and entering -/

/-- The segments of a joined path are entered like the segments it is joined of. -/
theorem foldl_segments_join (h : ∀ s ∈ ss, '/' ∉ s) :
    (segments (join absolute ss)).foldl (enter absolute) dir = ss.foldl (enter absolute) dir := by
  have hfalse : (segments (join false ss)).foldl (enter absolute) dir =
      ss.foldl (enter absolute) dir := by
    cases ss with
    | nil => rfl
    | cons s ss => rw [segments_join_false (List.cons_ne_nil s ss) h]
  cases absolute with
  | false => exact hfalse
  | true =>
    rw [join_true, segments, List.foldl_cons, enter_nil]
    exact hfalse

/-- The directory of a joined path is entered like the segments before the last. -/
theorem foldl_directory_join (h : ∀ t ∈ ss ++ [s], '/' ∉ t) :
    (directory (join absolute (ss ++ [s]))).foldl (enter absolute) dir =
      ss.foldl (enter absolute) dir := by
  have hsegments := segments_join_false (by simp : ss ++ [s] ≠ []) h
  cases absolute with
  | false => rw [directory, hsegments, List.dropLast_concat]
  | true =>
    rw [directory, join_true, segments, hsegments, ← List.cons_append, List.dropLast_concat,
      List.foldl_cons, enter_nil]

/-- What a reference is read from: the root, or the directory of the file it stands in. -/
def origin (base reference : List Char) : List (List Char) :=
  if isAbsolute reference then [] else directory base

/-- From there on, no segment has a slash. -/
theorem not_mem_origin (base reference cs : List Char) :
    ∀ s ∈ origin base reference ++ segments cs, '/' ∉ s := by
  intro s hs
  rcases List.mem_append.mp hs with hs | hs
  · unfold origin at hs
    split at hs
    · exact absurd hs List.not_mem_nil
    · exact not_mem_of_mem_segments (List.dropLast_subset _ hs)
  · exact not_mem_of_mem_segments hs

/-- Segments that a reference leads through, from where it is read. -/
def trail (base reference : List Char) : List (List Char) :=
  ((origin base reference ++ segments reference).foldl
    (enter (isAbsolute reference || isAbsolute base)) []).reverse

/-- A path that is resolved is its trail from the root or not. -/
theorem resolveChars_eq (base reference : List Char) : resolveChars base reference =
    join (isAbsolute reference || isAbsolute base) (trail base reference) := rfl

/-- The trail of a reference is normal. -/
theorem normal_trail (base reference : List Char) :
    Normal (isAbsolute reference || isAbsolute base) (trail base reference) :=
  Normal.foldl .nil (not_mem_origin base reference reference)

/-- A path in normal form leads to itself. -/
theorem resolveChars_nil_join (h : Normal absolute ss) :
    resolveChars [] (join absolute ss) = join absolute ss := by
  have horigin : origin [] (join absolute ss) = [] := by
    unfold origin
    split <;> rfl
  have habsolute : (isAbsolute (join absolute ss) || isAbsolute []) = absolute := by
    rw [h.isAbsolute_join, show isAbsolute [] = false from rfl, Bool.or_false]
  rw [resolveChars_eq, trail, horigin, List.nil_append, habsolute, foldl_segments_join h.not_mem,
    h.foldl_enter, List.reverse_reverse]

theorem isAbsolute_append_slash (d x : List Char) :
    isAbsolute (d ++ '/' :: x) = isAbsolute (d ++ ['/']) := by
  cases d <;> rfl

/-- What is read behind a slash is entered from the segments before it. -/
theorem foldl_origin_append_slash (a d x : List Char) :
    (origin a (d ++ '/' :: x) ++ segments (d ++ '/' :: x)).foldl (enter absolute) [] =
      (segments x).foldl (enter absolute)
        ((origin a (d ++ ['/']) ++ segments d).foldl (enter absolute) []) := by
  rw [segments_append_slash, ← List.append_assoc, List.foldl_append, origin, origin,
    isAbsolute_append_slash]

/-- A reference in a resolved file is read from the segments before that file. -/
theorem resolveChars_resolveChars (a d : List Char) {x r : List Char} (hx : Ordinary x)
    (hr : isAbsolute r = false) :
    resolveChars (resolveChars a (d ++ '/' :: x)) r = resolveChars a (d ++ '/' :: r) := by
  let rooted := isAbsolute (d ++ ['/']) || isAbsolute a
  let dir := (origin a (d ++ ['/']) ++ segments d).foldl (enter rooted) []
  have hdir : Normal rooted dir.reverse := Normal.foldl .nil (not_mem_origin a (d ++ ['/']) d)
  have hfile : resolveChars a (d ++ '/' :: x) = join rooted (dir.reverse ++ [x]) := by
    rw [resolveChars_eq, trail, isAbsolute_append_slash, foldl_origin_append_slash,
      segments_of_not_mem hx.not_mem, List.foldl_cons, List.foldl_nil, enter_ordinary hx,
      List.reverse_cons]
  have hnormal : Normal rooted (dir.reverse ++ [x]) := hdir.concat hx
  calc resolveChars (resolveChars a (d ++ '/' :: x)) r
    _ = join rooted ((directory (join rooted (dir.reverse ++ [x])) ++ segments r).foldl
          (enter rooted) []).reverse := by
        rw [hfile, resolveChars_eq, trail, origin, hr, hnormal.isAbsolute_join]
        rfl
    _ = join rooted ((segments r).foldl (enter rooted) dir).reverse := by
        rw [List.foldl_append, foldl_directory_join hnormal.not_mem, hdir.foldl_enter,
          List.reverse_reverse]
    _ = resolveChars a (d ++ '/' :: r) := by
        rw [resolveChars_eq, trail, isAbsolute_append_slash, foldl_origin_append_slash]

/-! ## Paths as texts -/

/-- **What is resolved is normal**. -/
theorem isNormal_resolve (base reference : String) : IsNormal (resolve base reference) :=
  ⟨_, _, by rw [resolve, String.toList_ofList, resolveChars_eq], normal_trail _ _⟩

/-- **A normal path is resolved to itself**. -/
theorem resolve_of_isNormal {path : String} (h : IsNormal path) : resolve "" path = path := by
  obtain ⟨absolute, ss, heq, hss⟩ := h
  rw [resolve, heq, String.toList_empty, resolveChars_nil_join hss, ← heq, String.ofList_toList]

/-- A reference in a file that was resolved is read from the directory of that file. -/
theorem resolve_resolve (a d : String) {x r : String} (hx : Ordinary x.toList)
    (hr : r.toList.head? ≠ some '/') :
    resolve (resolve a (d ++ "/" ++ x)) r = resolve a (d ++ "/" ++ r) := by
  have happend : ∀ t : String, (d ++ "/" ++ t).toList = d.toList ++ '/' :: t.toList := by simp
  rw [resolve, resolve, resolve, String.toList_ofList, happend, happend,
    resolveChars_resolveChars _ _ hx (by simpa [isAbsolute] using hr)]

/-- **Resolving is a projection onto the paths in normal form, and it composes**: wherever a reference
stands, it leads to a path in normal form; the paths that resolving leaves alone are those in normal
form, hence every path that a reference leads to; and a reference in a resolved file leads where it
leads when it is written in place of that file's name. -/
theorem resolve_normalizes (base reference : String) :
    IsNormal (resolve base reference) ∧
    resolve "" (resolve base reference) = resolve base reference ∧
    (∀ path, resolve "" path = path ↔ IsNormal path) ∧
    ∀ d x r : String, Ordinary x.toList → r.toList.head? ≠ some '/' →
      resolve (resolve base (d ++ "/" ++ x)) r = resolve base (d ++ "/" ++ r) :=
  ⟨isNormal_resolve base reference, resolve_of_isNormal (isNormal_resolve base reference),
    fun path => ⟨fun h => h ▸ isNormal_resolve "" path, resolve_of_isNormal⟩,
    fun d _ _ => resolve_resolve base d⟩

/-- Above the start and back, from a file that is itself named by a detour. -/
theorem resolve_normalizes_detour :
    resolve (resolve "lib/main.src" ("../../b//." ++ "/" ++ "c.src")) "../d" =
      resolve "lib/main.src" ("../../b//." ++ "/" ++ "../d") :=
  (resolve_normalizes "lib/main.src" "").2.2.2 "../../b//." "c.src" "../d"
    ⟨by decide, by decide, by decide, by decide⟩ (by decide)

example : resolveChars "lib/main.src".toList "../../b//./../d".toList = "../d".toList := by decide

end ScriptBundler.Path
