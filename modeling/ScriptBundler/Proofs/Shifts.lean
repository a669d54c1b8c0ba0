import ScriptBundler.Proofs.Embedding
import ScriptBundler.Proofs.Outputs
import ScriptBundler.Proofs.Tiling

/-!
# Proofs/Shifts — what cannot be written as short as possible

    a file ──include──▸ … ──include──▸ a file with a shift
       │                                        │
    reported as the file          reported as the place and the operator

Minified output has no way to write a shift, and writing stops at the first one (`Graph.Blamed`).  The failure
has the place of the shift, but the file that it is reported under is the one whose text was being
written, which leads to the file with the shift by includes.
-/

namespace ScriptBundler

open Layout (text eol intercalate)

/-! ## The first shift -/

/-- Why nodes cannot be minified: the first of them that is a shift. -/
def firstShift? (ns : List Node) : Option WriteError := ns.findSome? Node.shift?

/-- **Writing ends well only if no node stops it**, and fails because of the first one that does, for a
reason that `E` allows what is put in place, or at an `if` that is uneven. -/
theorem Drafts.ends {ε α : Type} {E : WriteError → Prop} {scene : Scene} {sceneOf : ε → Scene}
    {demand : Node → List Demand} {stop? : Node → Option WriteError} {uneven : Prop} {pre : Layout}
    {placed : List Nat} {ns : List Node} {w : (ε → Write Layout) → Write α} {out : α → Layout}
    (splicer : ε → Write Layout)
    (hE : ∀ {path i t env}, scene.include? path = some (i, t) → sceneOf env = scene.inside t →
      ∀ s, Ends (splicer env s) (fun _ => True) E)
    (h : Drafts scene sceneOf demand stop? uneven pre placed ns w out) (s : List Nat) :
    Ends (w splicer s) (fun _ => ns.findSome? stop? = none) fun e => ns.findSome? stop? = some e ∨ E e ∨
      (uneven ∨ ∃ n ∈ ns, n.isUneven = true) ∧ ∃ count, e = .inlineBody count := by
  induction h generalizing s with
  | write hstop => exact hstop
  | bind _ _ ih ihk =>
    rw [List.findSome?_append]
    refine Ends.bind ((ih s).mono (fun _ => id) fun e he => ?_) fun p hnone => ?_
    · rcases he with he | he | ⟨huneven, he⟩
      · exact .inl (by rw [he, Option.some_or])
      · exact .inr (.inl he)
      · refine .inr (.inr ⟨huneven.imp_right fun ⟨n, hn, h⟩ => ?_, he⟩)
        exact ⟨n, List.mem_append_left _ hn, h⟩
    · rw [hnone, Option.none_or]
      refine (ihk p.1 p.2).mono (fun _ => id) fun e he => he.imp_right (Or.imp_right fun he => ?_)
      refine ⟨he.1.imp_right fun ⟨n, hn, h⟩ => ?_, he.2⟩
      exact ⟨n, List.mem_append_right _ hn, h⟩
  | mono _ _ ih => exact ih s
  | drop _ _ _ ih => exact ih s
  | enter _ hstop _ ih =>
    rw [List.findSome?_cons, hstop]
    refine (ih s).mono (fun _ => id) fun e he => he.imp_right (Or.imp_right fun he => ⟨?_, he.2⟩)
    rcases he.1 with (huneven | huneven) | ⟨n, hn, huneven⟩
    · exact .inl huneven
    · exact .inr ⟨_, List.mem_cons_self, huneven⟩
    · exact .inr ⟨n, List.mem_cons_of_mem _ hn, huneven⟩
  | stop hstop => exact .inl (by rw [List.findSome?_cons, hstop])
  | uneven huneven => exact .inr (.inr ⟨.inl huneven, _, rfl⟩)
  | splice hinclude henv hstop =>
    dsimp only
    rw [Scene.splice_eq, List.findSome?_cons, hstop]
    split
    · exact rfl
    · exact (hE hinclude henv _).mono (fun _ _ => rfl) fun _ he => .inr (.inl he)

/-! ## Modules -/

namespace Module

/-- An include of `m` stands for the module `t`. -/
def Includes (modules : List Module) (m t : Module) : Prop :=
  ∃ path i, target? modules m.includes path = some (i, t)

/-- A shift in `m`, or in a module that includes lead to, is the reason why it cannot be minified. -/
def Shifts (modules : List Module) (m : Module) (e : WriteError) : Prop :=
  ∃ t, Relation.ReflTransGen (Includes modules) m t ∧ firstShift? t.script.nodes = some e

/-- The reasons why a module may not be written. -/
def Fails (modules : List Module) (m : Module) (e : WriteError) : Prop :=
  Shifts modules m e ∨ ∃ count, e = .inlineBody count

/-- A module fails if one it includes does. -/
theorem Fails.head {modules : List Module} {m t : Module} {e : WriteError} (h : Fails modules t e)
    (hincludes : Includes modules m t) : Fails modules m e := by
  refine h.imp_left fun hshifts => ?_
  obtain ⟨q, hq, hfirst⟩ := hshifts
  exact ⟨q, .head hincludes hq, hfirst⟩

end Module

namespace Minified

variable {scene : Scene} {n : Nat} {m : Module}

/-- An include that is found is one of the active module. -/
theorem includes_of_include? {path : String} {i : Nat} {t : Module}
    (h : (scene.inside m).include? path = some (i, t)) : Module.Includes scene.modules m t := by
  obtain ⟨m', hlinked, htarget⟩ := Option.bind_eq_some_iff.mp h
  have hm : m' = m := by
    unfold Scene.linked? at hlinked
    split at hlinked
    · cases hlinked
    · exact (Option.some.inj hlinked).symm
  exact ⟨path, i, hm ▸ htarget⟩

/-- The statements of a module fail for a shift in it, if those put in place fail for one of their own. -/
theorem stmts_ends {splicer : Splicer} {env : Env} (henv : env.scene = scene.inside m)
    (hsplicer : ∀ t env, env.scene = scene.inside t →
      ∀ s, Ends (splicer env s) (fun _ => True) (Module.Fails scene.modules t)) (s : List Nat) :
    Ends (stmts splicer env m.script.body s) (fun _ => True) (Module.Fails scene.modules m) := by
  have hdrafted := drafted_stmts env m.script.body
  rw [henv] at hdrafted
  refine (hdrafted.ends (E := Module.Fails scene.modules m) splicer (fun hinclude henv s => ?_) s).mono
    (fun _ _ => trivial) fun e he => ?_
  · exact (hsplicer _ _ henv s).mono (fun _ => id) fun e he => he.head (includes_of_include? hinclude)
  · rcases he with hfirst | he | ⟨-, he⟩
    · exact .inl ⟨m, .refl, hfirst⟩
    · exact he
    · exact .inr he

/-- **Minifying a module** fails for a reason of its own or of a module it includes. -/
theorem body_ends (n : Nat) : ∀ t env, env.scene = scene.inside t →
    ∀ s, Ends (body n env s) (fun _ => True) (Module.Fails scene.modules t) := by
  induction n with
  | zero => exact fun _ _ _ _ => trivial
  | succ n ih =>
    intro t env henv s
    have hbody : body (n + 1) env = stmts (body n) env t.script.body :=
      Manner.body_succ_inside (M := manner) henv
    rw [hbody]
    exact stmts_ends henv ih s

/-- Minifying the main script. -/
theorem script_ends (s : List Nat) :
    Ends (script (scene.inside m) m.script s) (fun _ => True) (Module.Fails scene.modules m) :=
  stmts_ends rfl (body_ends _) s

/-- Minifying a module in its function. -/
theorem registered_ends (id : String) (s : List Nat) :
    Ends (registered (scene.inside m) id m.script s) (fun _ => True) (Module.Fails scene.modules m) :=
  Ends.bind (script_ends s) fun _ _ => trivial

/-- A script that is no module fails for a shift in it. -/
theorem standalone_ends {n : Naming} (script : Script) (s : List Nat) :
    Ends (Minified.script { naming := n } script s) (fun _ => True) fun e =>
      firstShift? script.nodes = some e ∨ ∃ count, e = .inlineBody count := by
  refine ((drafted_stmts { scene := { naming := n } } script.body).ends (E := fun _ => False)
    (body 0) (fun _ _ _ => trivial) s).mono (fun _ _ => trivial) fun e he => ?_
  exact he.imp_right fun he => (he.resolve_left id).2

end Minified

/-! ## Outputs -/

/-- The header has no shift. -/
theorem runtimeSource_firstShift {script : Script} (h : runtimeSource.parse = .ok script) :
    firstShift? script.nodes = none := by
  have hall : runtimeSource.parse.toOption.all (fun s => (firstShift? s.nodes).isNone) = true := by
    decide +kernel
  rw [h] at hall
  exact Option.isNone_iff_eq_none.mp hall

namespace Graph

variable {g : Graph} {settings : Settings} {relocate : String → String}

/-- A failure to write a shift is reported for a module whose text was being written. -/
def Blamed (g : Graph) (e : BuildError) : Prop :=
  ∀ op span, e.cause = .unwritable (.unsupportedOperator op span) → e.range = some span ∧
    ∃ m ∈ g.modules, e.target = m.path ∧ Module.Shifts g.modules m (.unsupportedOperator op span)

theorem textOf_ends {w : Write Layout} {Q : WriteError → Prop} (h : Ends (w []) (fun _ => True) Q) :
    Ends (Scene.textOf w) (fun _ => True) Q := by
  show Ends (Layout.join <$> Prod.fst <$> w []) _ _
  cases hw : w [] with
  | ok p => trivial
  | error e =>
    rw [hw] at h
    exact h

/-- A part that fails names the module it is written for. -/
theorem part_ends {m : Module} (hm : m ∈ g.modules) {t : Except WriteError String}
    (h : Ends t (fun _ => True) (Module.Fails g.modules m)) :
    Ends (Bundle.part m.path t) (fun _ => True) g.Blamed := by
  cases t with
  | ok _ => trivial
  | error x =>
    intro op span hcause
    obtain rfl : x = .unsupportedOperator op span := BuildError.Cause.unwritable.inj hcause
    refine ⟨rfl, m, hm, rfl, h.resolve_right fun hinline => ?_⟩
    obtain ⟨_, hcount⟩ := hinline
    cases hcount

/-- The runtime can be read. -/
theorem runtime_ends (modules : List Module) :
    Ends (Bundle.runtime modules) (fun r => ∀ s ∈ r, runtimeSource.parse = .ok s) g.Blamed := by
  unfold Bundle.runtime
  split
  · exact fun _ hs => absurd hs (Option.not_mem_none _)
  · cases hparse : runtimeSource.parse with
    | ok s =>
      intro s' hs
      rw [← Option.some.inj hs]
    | error report =>
      intro op span hcause
      cases hcause

/-- The runtime is written. -/
theorem header_ends {n : Naming} (hmode : n.settings.mode = .minified) {s : Script}
    (hs : runtimeSource.parse = .ok s) :
    Ends (Bundle.part runtimeSource.name (Scene.standalone n s)) (fun _ => True) g.Blamed := by
  have hends := textOf_ends (Minified.standalone_ends (n := n) s [])
  have hscript : Scene.standalone n s = Scene.textOf (Minified.script { naming := n } s) := by
    unfold Scene.standalone Scene.script Scene.settings
    rw [hmode]
  rw [hscript]
  cases htext : Scene.textOf (Minified.script { naming := n } s) with
  | ok _ => trivial
  | error x =>
    rw [htext, runtimeSource_firstShift hs] at hends
    intro op span hcause
    obtain rfl : x = .unsupportedOperator op span := BuildError.Cause.unwritable.inj hcause
    rcases hends with hnone | ⟨_, hcount⟩
    · cases hnone
    · cases hcount

/-- A part of the output. -/
theorem chunk_ends (scene : Scene) {m : Module} {w : Write Layout} (hmode : scene.settings.mode = .minified)
    (h : scene.IsChunk m w) : Ends (w []) (fun _ => True) (Module.Fails scene.modules m) := by
  rcases h with rfl | ⟨id, rfl⟩
  · rw [Scene.script, Scene.settings_inside, hmode]
    exact Minified.script_ends []
  · rw [Scene.registered, Scene.settings_inside, hmode]
    exact Minified.registered_ends id []

/-- **A shift is reported for the module whose text was being written**, never for the header. -/
theorem bundle_ends (hmode : settings.mode = .minified) :
    Ends (g.bundle settings relocate) (fun _ => True) g.Blamed := by
  refine (runtime_ends _).bind fun runtime hruntime => ?_
  have hnaming : (Bundle.naming settings relocate g runtime).settings.mode = .minified := by
    rw [Bundle.settings_naming, hmode]
  let scene : Scene := { naming := Bundle.naming settings relocate g runtime, modules := g.modules }
  refine Ends.bind (Ends.mapM fun s hs => header_ends hnaming (hruntime s (Option.mem_toList.mp hs)))
    fun _ _ => ?_
  refine Ends.bind (Ends.mapM fun m hm => part_ends (Bundle.mem_modules_of_registered hm) (textOf_ends ?_))
    fun _ _ => ?_
  · exact chunk_ends scene hnaming (.inr ⟨_, rfl⟩)
  · have hentry : g.entry.toModule ∈ g.modules := List.mem_map_of_mem List.mem_cons_self
    exact Ends.bind (part_ends hentry (textOf_ends (chunk_ends scene hnaming (.inl rfl))))
      fun _ _ => trivial

end Graph

/-! ## Failures of other kinds -/

/-- A failure that is not about writing. -/
def BuildError.Unwritten (e : BuildError) : Prop := ∀ x, e.cause ≠ .unwritable x

namespace Library

variable (files : Files)

/-- A file that cannot be read is no fault of writing. -/
theorem fetch_ends (r : Request) : Ends (r.fetch files) (fun _ => True) BuildError.Unwritten := by
  have hfailure : ∀ cause, (∀ x, cause ≠ .unwritable x) → (r.failure cause).Unwritten := by
    intro cause hcause
    unfold Request.failure
    split <;> exact hcause
  unfold Request.fetch
  split
  · exact hfailure _ (by simp)
  · exact hfailure _ (by simp)
  · split
    · trivial
    · split
      · trivial
      · exact fun x => by simp [BuildError.ofReport]

theorem complete_ends (lib : Library) (r : Request) :
    Ends (lib.complete files r).1 (fun _ => True) BuildError.Unwritten := by
  have hfetch := fetch_ends files r
  unfold complete
  cases h : r.fetch files with
  | ok fetched => trivial
  | error e =>
    rw [h] at hfetch
    exact hfetch

theorem completeAll_ends (n : Nat) (lib : Library) (queue : List Request) :
    Ends (completeAll files n lib queue).1 (fun _ => True) BuildError.Unwritten := by
  fun_induction completeAll files n lib queue with
  | case1 => trivial
  | case2 => trivial
  | case3 n lib r queue new lib' h ih => exact ih
  | case4 n lib r queue e lib' h =>
    have hends := complete_ends files lib r
    rw [h] at hends
    exact hends

/-- Loading a library fails for other reasons. -/
theorem load_unwritten (lib : Library) (entry : String) :
    Ends (lib.load files entry).1 (fun _ => True) BuildError.Unwritten := by
  have hends := completeAll_ends files (requestBound files)
  unfold load
  generalize lib.resolve files "" entry = resolved
  obtain ⟨path, lib'⟩ := resolved
  dsimp only
  generalize lib'.schedule [{ path, form := .module }] = scheduled
  obtain ⟨requests, lib''⟩ := scheduled
  specialize hends lib'' requests
  dsimp only
  cases h : (completeAll files (requestBound files) lib'' requests).1 with
  | ok _ => trivial
  | error e =>
    rw [h] at hends
    exact hends

end Library

namespace Graph

variable {lib : Library}

theorem foldlM_ends {ε α β : Type} {f : β → α → Except ε β} {Q : ε → Prop}
    (h : ∀ b a, Ends (f b a) (fun _ => True) Q) (as : List α) (b : β) :
    Ends (as.foldlM f b) (fun _ => True) Q := by
  induction as generalizing b with
  | nil => trivial
  | cons a as ih => exact Ends.bind (h b a) fun b' _ => ih b'

theorem target_unwritten (base : String) (ref : Reference) :
    Ends (target lib base ref) (fun _ => True) BuildError.Unwritten := by
  unfold target
  split
  · trivial
  · exact fun x => by simp

theorem resource_unwritten (path : String) :
    Ends (resource lib path) (fun _ => True) BuildError.Unwritten := by
  unfold resource
  split
  · trivial
  · exact fun x => by simp

theorem injection_unwritten (base : String) (ref : Reference) :
    Ends (injection lib base ref) (fun _ => True) BuildError.Unwritten := by
  refine Ends.bind (target_unwritten base ref) fun path _ => ?_
  split
  · trivial
  · exact fun x => by simp

/-- Following references fails for other reasons. -/
theorem walk_unwritten (n : Nat) (stack : List String) (i : Nat) (r : Resource) (g : Graph) :
    Ends (walk lib n stack i r g) (fun _ => True) BuildError.Unwritten := by
  induction n generalizing stack i r g with
  | zero => trivial
  | succ n ih =>
    refine Ends.bind (foldlM_ends (fun g ref => ?_) _ _) fun g' _ => ?_
    · refine Ends.bind (target_unwritten ..) fun path _ => ?_
      split
      · split
        · exact fun x => by simp
        · trivial
      · exact Ends.bind (resource_unwritten _) fun child _ => Ends.bind (ih ..) fun _ _ => trivial
    · exact Ends.bind (Ends.mapM fun ref _ => injection_unwritten ..) fun _ _ => trivial

/-- Resolving a library fails for other reasons. -/
theorem resolve_unwritten (entry : String) :
    Ends (resolve lib entry) (fun _ => True) BuildError.Unwritten :=
  Ends.bind (resource_unwritten entry) fun _ _ => walk_unwritten ..

end Graph

/-! ## The text of an operation -/

namespace Source

variable {source : Source} {script : Script} {op : BinaryOp} {span : Span}

/-- A stretch that an operator joins has the operator in its text, and more on both sides of it. -/
theorem slice_of_joined (h : source.stock.Joined op span) : ∃ left right, left ≠ "" ∧ right ≠ "" ∧
    source.slice span.start.offset span.stop.offset = some (left ++ op.spelling ++ right) := by
  obtain ⟨first, o, last, hfirst, ho, hlast, hkind, heof, hstart, hbefore, hafter, hstop⟩ := h
  obtain ⟨laid, rest, tokens, htext, htiles, htokens, -⟩ := tiles_scanFrom .first 0 source.text.toList
  have htiled := htiles.tiled source [] htext rfl
  have hmem : ∀ t ∈ source.scan.tokens, t ∈ tokens ∨ t = ⟨.eof, .point (Position.first.after laid)⟩ := by
    intro t ht
    rw [show source.scan.tokens = _ from htokens] at ht
    simpa using ht
  have hop : op.token ≠ .eof := by cases op <;> simp [BinaryOp.token]
  have ho := (hmem o ho).resolve_right fun heq => hop (by rw [← hkind, heq])
  have hlast := (hmem last hlast).resolve_right fun heq => heof (by rw [heq])
  -- The first token is not the end of the text, since the operator stands behind it.
  have hfirst := (hmem first hfirst).resolve_right fun heq => by
    have hin := htiled.within o ho
    have hend : (Position.first.after laid).offset ≤ o.span.start.offset := by
      rw [heq] at hbefore
      exact hbefore
    omega
  have hne : ∀ t ∈ tokens, ∀ text, source.slice t.span.start.offset t.span.stop.offset = some text →
      text ≠ "" := by
    rintro t ht _ hslice rfl
    have hin := htiled.within t ht
    obtain ⟨-, -, -, -, hsize⟩ := exists_of_slice hslice
    simp at hsize
    omega
  obtain ⟨x, hx, -⟩ := htiled.quoted first hfirst
  obtain ⟨y, hy, hquotes⟩ := htiled.quoted o ho
  obtain ⟨z, hz, -⟩ := htiled.quoted last hlast
  obtain rfl : op.spelling = y := by
    rw [hkind] at hquotes
    rw [← String.toList_inj]
    cases op <;> exact hquotes
  obtain ⟨u, hu⟩ := slice_join hx hy hbefore
  obtain ⟨v, hv⟩ := slice_join hu hz hafter
  refine ⟨x ++ u, v ++ z, ?_, ?_, ?_⟩
  · exact fun h => hne first hfirst x hx (String.append_eq_empty_iff.mp h).1
  · exact fun h => hne last hlast z hz (String.append_eq_empty_iff.mp h).2
  · rw [← hstart, ← hstop, hv, String.append_assoc]

/-- **The first shift in the tree of a text is `op` at `span`**, and this is what stands there. -/
structure Shifts (source : Source) (op : BinaryOp) (span : Span) : Prop where
  isShift : op.isShift = true
  first : ∃ script, source.parse = .ok script ∧
    firstShift? script.nodes = some (.unsupportedOperator op span)
  text : ∃ left right, left ≠ "" ∧ right ≠ "" ∧
    source.slice span.start.offset span.stop.offset = some (left ++ op.spelling ++ right)

/-- A shift that is found stands in the text. -/
theorem shifts_of_parse (hparse : source.parse = .ok script)
    (h : firstShift? script.nodes = some (.unsupportedOperator op span)) : source.Shifts op span := by
  obtain ⟨n, hn, hshift⟩ := List.exists_of_findSome?_eq_some h
  have hproper := Stmt.proper_allNodes ((inductive_proper source.stock).stmts script.body)
    (readFrom_stock hparse).proper n hn
  unfold Node.shift? at hshift
  split at hshift
  · split at hshift
    · rename_i hop
      obtain ⟨rfl, rfl⟩ : _ ∧ _ := by simpa using hshift
      exact ⟨hop, ⟨script, hparse, h⟩, slice_of_joined hproper.1.1.2.1⟩
    · cases hshift
  · cases hshift

end Source

/-! ## From files to failures -/

/-- The module at `a` includes the one at `b`. -/
def Files.Includes (files : Files) (a b : String) : Prop :=
  ∃ r, files.content? (a, .module) = some (.module r) ∧
    ∃ path, .include_ path ∈ mentionsOf r.script.nodes ∧ files.resolve a path = b

namespace Graph

variable {files : Files} {lib : Library} {g : Graph} {a : String}

/-- The includes of modules are those of the files they were read from. -/
theorem includes_of_modules (hsound : lib.Sound files) (h : resolve lib a = .ok g) {m t : Module}
    (hm : m ∈ g.modules) (hincludes : Module.Includes g.modules m t) :
    t ∈ g.modules ∧ files.Includes m.path t.path := by
  obtain ⟨path, i, htarget⟩ := hincludes
  obtain ⟨hlookup, ht⟩ := Module.target?_eq_some.mp htarget
  obtain ⟨node, hnode, rfl⟩ := List.mem_map.mp hm
  obtain ⟨hexploring, -, -⟩ := exploring_of_resolve hsound.path_of_resource h
  have hedge : (path, i) ∈ node.includes := mem_of_lookup hlookup
  obtain ⟨n, hn, hresolved, -⟩ := hexploring.meant node hnode false _ hedge
  obtain ⟨r, hr, hscript⟩ := hexploring.fromFile node hnode
  have hpath := cited_of_resolve h node hnode _ hedge
  rw [hscript] at hpath
  refine ⟨List.mem_of_getElem? ht, r, hsound.content_of_resource hr, path,
    (Source.mem_references_of_parse (hsound.parse_of_resource hr) path).2.1.mp hpath, ?_⟩
  have hmodule : g.modules[i]? = some n.toModule := by rw [modules, List.getElem?_map, hn]; rfl
  obtain rfl : n.toModule = t := Option.some.inj (hmodule.symm.trans ht)
  exact (hsound.consistent _ _ _ hresolved).symm

/-- A shift that stops the writing of a module is in a file that includes lead to. -/
theorem exists_of_shifts (hsound : lib.Sound files) (h : resolve lib a = .ok g) {m : Module}
    (hm : m ∈ g.modules) {op : BinaryOp} {span : Span}
    (hshifts : Module.Shifts g.modules m (.unsupportedOperator op span)) :
    ∃ q r, Relation.ReflTransGen files.Includes m.path q ∧ lib.resource? q = some r ∧
      Source.Shifts ⟨q, r.source⟩ op span := by
  obtain ⟨t, hreach, hfirst⟩ := hshifts
  obtain ⟨ht, hpaths⟩ : t ∈ g.modules ∧ Relation.ReflTransGen files.Includes m.path t.path := by
    clear hfirst
    induction hreach with
    | refl => exact ⟨hm, .refl⟩
    | tail _ hincludes ih =>
      obtain ⟨hmem, hpaths⟩ := ih
      obtain ⟨ht, hlast⟩ := includes_of_modules hsound h hmem hincludes
      exact ⟨ht, hpaths.tail hlast⟩
  obtain ⟨node, hnode, rfl⟩ := List.mem_map.mp ht
  obtain ⟨hexploring, -, -⟩ := exploring_of_resolve hsound.path_of_resource h
  obtain ⟨r, hr, hscript⟩ := hexploring.fromFile node hnode
  refine ⟨node.path, r, hpaths, hr, Source.shifts_of_parse (hsound.parse_of_resource hr) ?_⟩
  rw [← hscript]
  exact hfirst

end Graph

namespace Program

variable {p : Program} {lib : Library} {e : BuildError}

/-- A failure on the way through the queue is that of an output. -/
theorem Drains.exists_of_error {queue : List String} {done : List (String × String)}
    (h : Drains p lib queue done (.error e)) : ∃ path, p.output lib path = .error e := by
  generalize hresult : Except.error e = result at h
  induction h with
  | done => cases hresult
  | skip _ _ ih => exact ih hresult
  | fail _ houtput => exact ⟨_, houtput.trans (congrArg _ (Except.error.inj hresult).symm)⟩
  | enter _ _ _ ih => exact ih hresult

/-- An output fails before it is written, or a module of the graph is blamed. -/
theorem output_ends (lib : Library) (hmode : p.settings.mode = .minified) (path : String) :
    Ends (p.output lib path) (fun _ => True) fun e => e.Unwritten ∨
      ∃ g, Graph.resolve lib path = .ok g ∧ g.Blamed e := by
  unfold output
  cases hg : Graph.resolve lib path with
  | error e =>
    have hends : Ends (Graph.resolve lib path) _ _ := Graph.resolve_unwritten path
    rw [hg] at hends
    exact .inl hends
  | ok g =>
    show Ends (g.bundle p.settings p.relocate >>= fun text => pure (g.nativeTargets, text)) _ _
    refine Ends.bind ((Graph.bundle_ends hmode).mono (fun _ => id) fun e he => ?_) fun _ _ => trivial
    exact .inr ⟨g, rfl, he⟩

/-- **A failure to write a shift has the place of the shift, but not always its file.**  The file that is
reported is loaded, and leads to the file with the shift by includes. -/
theorem shift_of_build (hmode : p.settings.mode = .minified) {entry : String} {op : BinaryOp} {span : Span}
    (hbuild : (p.build entry).1 = .error e) (hcause : e.cause = .unwritable (.unsupportedOperator op span)) :
    e.range = some span ∧ ((p.build entry).2.resource? e.target).isSome ∧
      ∃ q r, Relation.ReflTransGen p.files.Includes e.target q ∧
        (p.build entry).2.resource? q = some r ∧ Source.Shifts ⟨q, r.source⟩ op span := by
  obtain ⟨t, ht, hload, hlib, hfailed, hdrains⟩ := p.exists_drains entry
  have hsound := ((Loading.underway_start (.empty p.files _) entry).run ht.1).sound
  have halive : t.failure = none := by
    cases hfailure : t.failure with
    | none => rfl
    | some e' =>
      have hends := Library.load_unwritten p.files p.library entry
      obtain rfl := Except.error.inj (hbuild.symm.trans (hfailed e' hfailure))
      rw [hload, Loading.result, hfailure] at hends
      exact absurd hcause (hends _)
  obtain ⟨path, hpath⟩ := (hbuild ▸ hdrains halive).exists_of_error
  have hends := output_ends t.library hmode path
  rw [hpath] at hends
  obtain ⟨g, hg, hblamed⟩ := hends.resolve_left fun hunwritten => hunwritten _ hcause
  obtain ⟨hrange, m, hm, htarget, hshifts⟩ := hblamed op span hcause
  obtain ⟨hexploring, -, -⟩ := Graph.exploring_of_resolve hsound.path_of_resource hg
  obtain ⟨node, hnode, rfl⟩ := List.mem_map.mp hm
  obtain ⟨r, hr, -⟩ := hexploring.fromFile node hnode
  rw [hlib, htarget]
  exact ⟨hrange, Option.isSome_iff_exists.mpr ⟨r, hr⟩, Graph.exists_of_shifts hsound hg hm hshifts⟩

/-- A file without a shift that includes one with a shift. -/
def shiftInside : Program where
  files := { texts := [("a.src", "y = 1\n#include \"b\""), ("b.src", "f(1 << x, 2 >> 3)")] }
  settings := { mode := .minified }

theorem shift_of_build_inside : ∃ e span, (shiftInside.build "a.src").1 = .error e ∧
    e.cause = .unwritable (.unsupportedOperator .shiftLeft span) ∧ e.target = "a.src" ∧
    ∃ q r, Relation.ReflTransGen shiftInside.files.Includes "a.src" q ∧ q ≠ "a.src" ∧
      (shiftInside.build "a.src").2.resource? q = some r ∧ Source.Shifts ⟨q, r.source⟩ .shiftLeft span := by
  let span : Span := ⟨⟨1, 3, 2⟩, ⟨1, 9, 8⟩⟩
  have hbuild : (shiftInside.build "a.src").1 =
      .error ⟨"a.src", some span, .unwritable (.unsupportedOperator .shiftLeft span)⟩ := by decide +kernel
  obtain ⟨-, -, q, r, hreach, hr, hshifts⟩ := shift_of_build rfl hbuild rfl
  refine ⟨_, span, hbuild, rfl, rfl, q, r, hreach, ?_, hr, hshifts⟩
  -- The text of the file that is reported has no shift.
  rintro rfl
  have hnone : ((shiftInside.build "a.src").2.resource? "a.src").all (fun r =>
      (Source.parse ⟨"a.src", r.source⟩).toOption.all fun s => (firstShift? s.nodes).isNone) = true := by
    decide +kernel
  obtain ⟨script, hparse, hfirst⟩ := hshifts.first
  rw [hr, Option.all_some, hparse] at hnone
  simp [Except.toOption, hfirst] at hnone

end Program

end ScriptBundler
