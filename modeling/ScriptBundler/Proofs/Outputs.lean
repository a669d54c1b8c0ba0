import ScriptBundler.Program
import ScriptBundler.Proofs.Boundaries
import ScriptBundler.Proofs.Embedding

/-!
# Proofs/Outputs — which outputs a program has

    queue: path :: rest ──output──▸ rest ++ scripts that `path` loads while it runs

The outputs of a program are made one after the other, and each adds to the queue the scripts it loads
while it runs.  `Program.Drains` is the queue with no bound on its length; the bound is never met
(`Program.drains_outputs`), so the outputs are closed under what they load (`Program.outputs_closed`).
Where such scripts are not followed, the entry is the only output unless a directive names what a call
loads (`Program.keys_eq_singleton_iff`).
-/

namespace ScriptBundler

open scoped List

theorem nodup_keys_concat {β : Type} {l : List (String × β)} {e : String × β} (h : (l.map Prod.fst).Nodup)
    (hnew : e.1 ∉ l.map Prod.fst) : ((l ++ [e]).map Prod.fst).Nodup := by
  rw [List.map_append]
  refine List.nodup_append.mpr ⟨h, List.nodup_singleton _, fun a ha b hb hab => hnew ?_⟩
  rwa [hab, List.mem_singleton.mp hb] at ha

/-! ## Calls in the text -/

/-- How a call that loads the script at `target` is written. -/
def Naming.call (n : Naming) (target : String) : Layout.Piece :=
  .text s!"{nativeImport}({quote (n.relocate target)})"

/-- Where scripts are put does not change while names are entered. -/
theorem Naming.relocate_enter (n : Naming) (paths : List String) (named counted : List Script) :
    (n.enter paths named counted).1.relocate = n.relocate := by
  have hidentifier : ∀ (n : Naming) (x : String), (n.addIdentifier x).relocate = n.relocate := by
    intro n x
    unfold addIdentifier
    split
    · rfl
    · split <;> rfl
  have hfinalize : ∀ n : Naming, n.finalize.1.relocate = n.relocate := by
    intro n
    unfold finalize
    split <;> rfl
  rw [enter, hfinalize, foldl_keeps relocate addLiteral fun _ _ => rfl,
    foldl_keeps relocate addIdentifier hidentifier, foldl_keeps relocate addModule fun _ _ => rfl]

namespace Scene

variable {scene : Scene} {m : Module}

/-- A call that is noted is written with the script it was noted for. -/
theorem marks_of_native (hnative : scene.settings.nativeImports = true)
    (hdev : scene.settings.devMode = false) {node : Node} {path target : String}
    (hnode : node.native? = some path) (hlookup : m.natives.lookup path = some target) :
    (scene.inside m).marks node = [scene.naming.call target] := by
  unfold Node.native? at hnode
  split at hnode
  · rename_i c es span cs
    obtain ⟨form, cspan, ccs⟩ := c
    obtain ⟨hform, raw, espan, ecs, rfl⟩ := nativeTarget?_eq_some.mp hnode
    obtain rfl : form = .identifier nativeImport := hform
    have hcall : (scene.inside m).nativeCall? ⟨.identifier nativeImport, cspan, ccs⟩
        [⟨.literal (.string raw path), espan, ecs⟩] =
          some s!"{nativeImport}({quote (scene.naming.relocate target)})" := by
      simp only [nativeCall?, settings_inside, hnative, linked?_inside hdev, hlookup, Bool.true_and,
        beq_self_eq_true, if_true, Option.bind_eq_bind, Option.bind_some]
      rfl
    rw [marks, hcall, Option.elim_some, Layout.text, if_neg]
    · rfl
    · simp [nativeImport, toString]
  · cases hnode

/-- The calls of a module as they are written, if `target` says which scripts they load. -/
def calls (scene : Scene) (target : Module → String → String) (m : Module) : Layout :=
  (m.script.nodes.filterMap Node.native?).map fun path => scene.naming.call (target m path)

/-- What is written for the nodes of a module includes its calls. -/
theorem calls_sublist {target : Module → String → String} (hnative : scene.settings.nativeImports = true)
    (hdev : scene.settings.devMode = false) (hlookup : ∀ path ∈ m.script.nodes.filterMap Node.native?,
      m.natives.lookup path = some (target m path)) : scene.calls target m <+ scene.marksOf m := by
  rw [calls, List.filterMap_eq_flatMap_toList, List.map_flatMap, marksOf]
  refine List.Sublist.flatMap_right _ fun node hnode => ?_
  cases hpath : node.native? with
  | none => exact List.nil_sublist _
  | some path =>
    rw [marks_of_native hnative hdev hpath (hlookup path (List.mem_filterMap.mpr ⟨node, hnode, hpath⟩))]
    exact .refl _

end Scene

/-! ## Parts of an output -/

namespace Graph

variable {g : Graph} {n : Naming} {chunks : List Chunk} {output : String}

/-- `output` is made of `chunks`, which are written for the modules that are registered and the entry. -/
structure Renders (g : Graph) (n : Naming) (chunks : List Chunk) (output : String) : Prop where
  modules : chunks.map (·.module) = Bundle.registered n.settings g ++ [g.entry.toModule]
  written : ∀ c ∈ chunks, ∃ w, Scene.IsChunk { naming := n, modules := g.modules } c.module w ∧
    w [] = .ok (c.layout, c.inlined)
  joined : ∃ header, output = Bundle.joinParts (Bundle.separator n.settings.mode)
    (Bundle.preamble n :: header ++ chunks.map (·.layout.join))

/-- Every output is made of such parts. -/
theorem exists_renders {settings : Settings} (hdev : settings.devMode = false)
    {relocate : String → String} (h : g.bundle settings relocate = .ok output) :
    ∃ n chunks, n.settings = settings ∧ n.relocate = relocate ∧ g.Renders n chunks output := by
  obtain ⟨runtime, hruntime, -⟩ := Bundle.exists_runtime (Bundle.registered settings g)
  obtain ⟨header, bodies, main, -, hmodules, hbodies, hmain, houtput⟩ := exists_chunks hdev hruntime rfl h
  have hsettings := Bundle.settings_naming settings relocate g runtime
  have hrelocate : (Bundle.naming settings relocate g runtime).relocate = relocate :=
    Naming.relocate_enter ..
  generalize Bundle.naming settings relocate g runtime = n at *
  refine ⟨n, bodies ++ [main], hsettings, hrelocate, ?_, fun c hc => ?_, header, ?_⟩
  · rw [List.map_append, hmodules, hsettings, List.map_singleton, hmain.1]
  · rcases List.mem_append.mp hc with hc | hc
    · exact ⟨_, .inr ⟨_, rfl⟩, hbodies c hc⟩
    · obtain rfl := List.mem_singleton.mp hc
      exact ⟨_, .inl rfl, hmain.2⟩
  · rw [houtput, hsettings]

end Graph

/-! ## The queue -/

namespace Program

variable {p : Program} {lib : Library} {queue : List String} {done outs : List (String × String)}
  {a b : String}

/-- Going through the queue until it is empty or an output cannot be made. -/
inductive Drains (p : Program) (lib : Library) : List String → List (String × String) →
    Except BuildError (List (String × String)) → Prop where
  | done (done : List (String × String)) : Drains p lib [] done (.ok done)
  | skip {path : String} {queue : List String} {done : List (String × String)}
      {result : Except BuildError (List (String × String))} : path ∈ done.map Prod.fst →
      Drains p lib queue done result → Drains p lib (path :: queue) done result
  | fail {path : String} {queue : List String} {done : List (String × String)} {e : BuildError} :
      path ∉ done.map Prod.fst → p.output lib path = .error e →
      Drains p lib (path :: queue) done (.error e)
  | enter {path text : String} {queue targets : List String} {done : List (String × String)}
      {result : Except BuildError (List (String × String))} : path ∉ done.map Prod.fst →
      p.output lib path = .ok (targets, text) →
      Drains p lib (queue ++ targets) (done ++ [(path, text)]) result →
      Drains p lib (path :: queue) done result

/-- The output of `a` loads `b` while it runs. -/
def Next (p : Program) (lib : Library) (a b : String) : Prop :=
  ∃ targets text, p.output lib a = .ok (targets, text) ∧ b ∈ targets

/-- An output is the bundle of its graph. -/
theorem output_eq_ok {targets : List String} {text : String}
    (h : p.output lib a = .ok (targets, text)) : ∃ g, Graph.resolve lib a = .ok g ∧
      g.nativeTargets = targets ∧ g.bundle p.settings p.relocate = .ok text := by
  obtain ⟨g, hg, h⟩ := Except.bind_eq_ok.mp h
  obtain ⟨text', htext, h⟩ := Except.bind_eq_ok.mp h
  obtain ⟨rfl, rfl⟩ := Prod.mk.inj (Except.ok.inj h)
  exact ⟨g, hg, rfl, htext⟩

namespace Drains

/-- Outputs that were made come first. -/
theorem isPrefix (h : Drains p lib queue done (.ok outs)) : done <+: outs := by
  generalize hresult : Except.ok outs = result at h
  induction h with
  | done => exact Except.ok.inj hresult ▸ List.prefix_refl _
  | skip _ _ ih => exact ih hresult
  | fail => cases hresult
  | enter _ _ _ ih => exact (List.prefix_append _ _).trans (ih hresult)

theorem mem_of_done (h : Drains p lib queue done (.ok outs)) (ha : a ∈ done.map Prod.fst) :
    a ∈ outs.map Prod.fst := List.map_subset _ h.isPrefix.subset ha

/-- There is an output for all that was queued. -/
theorem mem_of_queue (h : Drains p lib queue done (.ok outs)) (ha : a ∈ queue) :
    a ∈ outs.map Prod.fst := by
  generalize hresult : Except.ok outs = result at h
  induction h with
  | done => cases ha
  | skip hmem h ih =>
    rcases List.mem_cons.mp ha with rfl | ha
    · exact (hresult ▸ h).mem_of_done hmem
    · exact ih ha hresult
  | fail => cases hresult
  | enter _ _ h ih =>
    rcases List.mem_cons.mp ha with rfl | ha
    · exact (hresult ▸ h).mem_of_done (by simp)
    · exact ih (List.mem_append_left _ ha) hresult

/-- Each output is made once. -/
theorem nodup (h : Drains p lib queue done (.ok outs)) (hdone : (done.map Prod.fst).Nodup) :
    (outs.map Prod.fst).Nodup := by
  generalize hresult : Except.ok outs = result at h
  induction h with
  | done => exact Except.ok.inj hresult ▸ hdone
  | skip _ _ ih => exact ih hdone hresult
  | fail => cases hresult
  | enter hnew _ _ ih =>
    exact ih (nodup_keys_concat hdone hnew) hresult

/-- What is new was made from its graph, and there is an output for all it loads. -/
theorem made (h : Drains p lib queue done (.ok outs)) {e : String × String} (he : e ∈ outs)
    (hnew : e ∉ done) :
    ∃ targets, p.output lib e.1 = .ok (targets, e.2) ∧ targets ⊆ outs.map Prod.fst := by
  generalize hresult : Except.ok outs = result at h
  induction h with
  | done => exact absurd (Except.ok.inj hresult ▸ he) hnew
  | skip _ _ ih => exact ih hnew hresult
  | fail => cases hresult
  | @enter path text queue targets done _ _ houtput h ih =>
    by_cases hmem : e ∈ done ++ [(path, text)]
    · obtain rfl : e = (path, text) := by simpa [hnew] using hmem
      exact ⟨targets, houtput, fun b hb => (hresult ▸ h).mem_of_queue (List.mem_append_right _ hb)⟩
    · exact ih hmem hresult

/-- What is new was reached from the queue. -/
theorem reached (h : Drains p lib queue done (.ok outs)) (ha : a ∈ outs.map Prod.fst) :
    a ∈ done.map Prod.fst ∨ ∃ b ∈ queue, Relation.ReflTransGen (p.Next lib) b a := by
  generalize hresult : Except.ok outs = result at h
  induction h with
  | done => exact .inl (Except.ok.inj hresult ▸ ha)
  | skip _ _ ih =>
    obtain ha | ⟨b, hb, hreach⟩ := ih hresult
    · exact .inl ha
    · exact .inr ⟨b, List.mem_cons_of_mem _ hb, hreach⟩
  | fail => cases hresult
  | @enter path text queue targets done _ _ houtput _ ih =>
    obtain ha | ⟨b, hb, hreach⟩ := ih hresult
    · rw [List.map_append, List.mem_append] at ha
      refine ha.imp_right fun ha => ⟨path, List.mem_cons_self, ?_⟩
      rw [List.mem_singleton.mp ha]
    · rcases List.mem_append.mp hb with hb | hb
      · exact .inr ⟨b, List.mem_cons_of_mem _ hb, hreach⟩
      · exact .inr ⟨path, List.mem_cons_self, .head ⟨targets, text, houtput, hb⟩ hreach⟩

/-- **The outputs from one script on are those it leads to**, if `R` says what each output loads. -/
theorem mem_iff {R : String → String → Prop} (h : Drains p lib [a] [] (.ok outs))
    (hR : ∀ {a targets text}, p.output lib a = .ok (targets, text) → ∀ b, b ∈ targets ↔ R a b) :
    b ∈ outs.map Prod.fst ↔ Relation.ReflTransGen R a b := by
  constructor
  · intro hb
    obtain hb | ⟨c, hc, hreach⟩ := h.reached hb
    · cases hb
    · rw [← List.mem_singleton.mp hc]
      refine hreach.lift id ?_
      rintro a b ⟨targets, text, houtput, hmem⟩
      exact (hR houtput b).mp hmem
  · intro hreach
    induction hreach with
    | refl => exact h.mem_of_queue List.mem_cons_self
    | tail _ hnext ih =>
      obtain ⟨e, he, rfl⟩ := List.mem_map.mp ih
      obtain ⟨targets, houtput, hsub⟩ := h.made he List.not_mem_nil
      exact hsub ((hR houtput _).mpr hnext)

/-- One script is the only output exactly if it loads no other. -/
theorem eq_singleton_iff {R : String → String → Prop} (h : Drains p lib [a] [] (.ok outs))
    (hR : ∀ {a targets text}, p.output lib a = .ok (targets, text) → ∀ b, b ∈ targets ↔ R a b) :
    outs.map Prod.fst = [a] ↔ ∀ b, R a b → b = a := by
  constructor
  · intro hkeys b hb
    have hmem : b ∈ outs.map Prod.fst := (h.mem_iff hR).mpr (.single hb)
    rw [hkeys] at hmem
    exact List.mem_singleton.mp hmem
  · intro hself
    have hall : ∀ b, Relation.ReflTransGen R a b → b = a := by
      intro b hb
      induction hb with
      | refl => rfl
      | tail _ hnext ih => exact hself _ (ih ▸ hnext)
    refine List.perm_singleton.mp ((List.perm_ext_iff_of_nodup (h.nodup List.nodup_nil)
      (List.nodup_singleton _)).mpr fun b => ?_)
    rw [h.mem_iff hR, List.mem_singleton]
    exact ⟨hall b, fun heq => heq ▸ .refl⟩

end Drains

/-! ## The bound -/

/-- An output is made for a module, and loads modules, each once. -/
theorem targets_of_output (hsound : lib.Sound p.files) {targets : List String} {text : String}
    (h : p.output lib a = .ok (targets, text)) : a ∈ lib.modules.map Prod.fst ∧
      targets.Nodup ∧ targets ⊆ lib.modules.map Prod.fst := by
  obtain ⟨g, hg, rfl, -⟩ := output_eq_ok h
  obtain ⟨r, hr, -⟩ := Except.bind_eq_ok.mp hg
  refine ⟨isSome_lookup_iff.mp (Option.isSome_iff_exists.mpr ⟨r, Graph.resource_eq_ok hr⟩),
    nodup_eraseDups _, fun b hb => ?_⟩
  obtain ⟨q, -, _, _, _, _, -, hsome⟩ := (Library.mem_nativeTargets_iff hsound hg).mp hb
  exact isSome_lookup_iff.mp hsome

/-- **The bound does not cut the queue short**: it makes up for what is queued and for what the modules
without an output can still queue. -/
theorem drains_outputs (hsound : lib.Sound p.files) {n : Nat} (hnodup : (done.map Prod.fst).Nodup)
    (hmodules : done.map Prod.fst ⊆ lib.modules.map Prod.fst)
    (hn : queue.length + (lib.modules.length - done.length) * lib.modules.length ≤ n) :
    p.Drains lib queue done (p.outputs lib n queue done) := by
  induction n generalizing queue done with
  | zero =>
    obtain rfl : queue = [] := List.length_eq_zero_iff.mp (by omega)
    exact .done done
  | succ n ih =>
    cases queue with
    | nil => exact .done done
    | cons path queue =>
      rw [outputs]
      rw [List.length_cons] at hn
      by_cases hdone : path ∈ done.map Prod.fst
      · rw [if_pos (isSome_lookup_iff.mpr hdone)]
        exact .skip hdone (ih hnodup hmodules (by omega))
      · rw [if_neg (fun h => hdone (isSome_lookup_iff.mp h))]
        cases houtput : p.output lib path with
        | error e => exact .fail hdone houtput
        | ok made =>
          obtain ⟨targets, text⟩ := made
          obtain ⟨hpath, htargets, hsub⟩ := targets_of_output hsound houtput
          have hkeys : (done ++ [(path, text)]).map Prod.fst ⊆ lib.modules.map Prod.fst := by
            rw [List.map_append]
            exact List.append_subset.mpr ⟨hmodules, by simpa using hpath⟩
          have hnodup' : ((done ++ [(path, text)]).map Prod.fst).Nodup := nodup_keys_concat hnodup hdone
          refine .enter hdone houtput (ih hnodup' hkeys ?_)
          -- One module more has its output, and it has queued every module at most once.
          have hroom := (List.subperm_of_subset hnodup' hkeys).length_le
          have hlength := (List.subperm_of_subset htargets hsub).length_le
          simp only [List.length_map, List.length_append, List.length_singleton] at hroom hlength ⊢
          obtain ⟨left, hleft⟩ := Nat.exists_eq_add_of_le hroom
          have hbefore : lib.modules.length - done.length = left + 1 := by omega
          have hafter : lib.modules.length - (done.length + 1) = left := by omega
          rw [hbefore, Nat.succ_mul] at hn
          rw [hafter]
          omega

/-- A build loads the entry and then goes through the queue, whatever the bounds are. -/
theorem exists_drains (p : Program) (entry : String) :
    ∃ t, Loading.Completes p.files (Loading.start p.files p.library entry) t ∧
      p.library.load p.files entry = (t.result.map fun _ => p.files.resolve "" entry, t.library) ∧
      (p.build entry).2 = t.library ∧
      (∀ e, t.failure = some e → (p.build entry).1 = .error e) ∧
      (t.failure = none → p.Drains t.library [p.files.resolve "" entry] [] (p.build entry).1) := by
  have hstart : p.library.Sound p.files := .empty p.files _
  obtain ⟨t, ht, hload⟩ := Library.exists_completes hstart entry
  have hsound := ((Loading.underway_start hstart entry).run ht.1).sound
  have hbuild : p.build entry = ((t.result.map fun _ => p.files.resolve "" entry).bind fun path =>
      p.outputs t.library (queueBound t.library) [path] [], t.library) := by
    rw [build, hload]
  rw [hbuild]
  refine ⟨t, ht, hload, rfl, fun e he => ?_, fun halive => ?_⟩
  · rw [Loading.result, he]
    rfl
  · rw [Loading.result, halive]
    exact drains_outputs hsound List.nodup_nil (by simp) (by simp [queueBound]; omega)

/-- What a build that ends well has loaded, and how it went on. -/
theorem drains_of_build {entry : String} (h : (p.build entry).1 = .ok outs) :
    ∃ lib, p.library.load p.files entry = (.ok (p.files.resolve "" entry), lib) ∧
      p.Drains lib [p.files.resolve "" entry] [] (.ok outs) := by
  obtain ⟨t, -, hload, -, hfailed, hdrains⟩ := p.exists_drains entry
  cases hfailure : t.failure with
  | some e => cases h.symm.trans (hfailed e hfailure)
  | none =>
    refine ⟨t.library, ?_, h ▸ hdrains hfailure⟩
    rw [hload, Loading.result, hfailure]
    rfl

/-! ## Scripts that are not followed -/

/-- Without native imports none are noted. -/
theorem library_of_off (h : p.settings.nativeImports = false ∨ p.settings.devMode = true) :
    p.library = { nativeImports := false } := by
  rcases h with h | h <;> simp [library, h]

/-- **Where calls are not followed, the entry is the only output** unless a module of its graph has a
call and a directive of the same text, and what they name is another module of the graph. -/
theorem keys_eq_singleton_iff (hoff : p.settings.nativeImports = false ∨ p.settings.devMode = true)
    {entry : String} (h : (p.build entry).1 = .ok outs) :
    outs.map Prod.fst = [p.files.resolve "" entry] ↔
      ∀ q b, Relation.ReflTransGen p.files.Links (p.files.resolve "" entry) q → p.files.Repeats q b →
        Relation.ReflTransGen p.files.Links (p.files.resolve "" entry) b → b = p.files.resolve "" entry := by
  obtain ⟨lib, hload, hdrains⟩ := drains_of_build h
  rw [library_of_off hoff] at hload
  generalize p.files.resolve "" entry = path at *
  obtain ⟨hsound, hclosed, r, hr⟩ := Library.closed_of_load hload
  have hkeyed : lib.Keyed := hsound.path_of_resource
  have hreaches : ∀ q, lib.Reaches path q ↔ Relation.ReflTransGen p.files.Links path q := fun q =>
    Library.reaches_iff hsound hclosed hr
  have htargets : ∀ {a targets text}, p.output lib a = .ok (targets, text) →
      ∀ b, b ∈ targets ↔ ∃ q, lib.Reaches a q ∧ lib.Crosses q b := by
    intro a targets text houtput b
    obtain ⟨g, hg, rfl, -⟩ := output_eq_ok houtput
    exact Library.mem_nativeTargets_iff hsound hg
  rw [hdrains.eq_singleton_iff htargets]
  constructor
  · intro hself q b hq hrepeats hb
    obtain ⟨rq, hrq⟩ := Graph.resource_of_reaches hkeyed hclosed hr ((hreaches q).mpr hq)
    obtain ⟨rb, hrb⟩ := Graph.resource_of_reaches hkeyed hclosed hr ((hreaches b).mpr hb)
    exact hself b ⟨q, (hreaches q).mpr hq, Library.crosses_of_repeats hsound hclosed hrq hrepeats
      (Option.isSome_iff_exists.mpr ⟨rb, hrb⟩)⟩
  · rintro hnone b ⟨q, hq, hcrosses⟩
    obtain heq | hrepeats := Library.repeats_of_crosses hload hcrosses
    · exact heq
    · obtain ⟨-, -, -, -, -, hsome⟩ := hcrosses
      exact hnone q b ((hreaches q).mp hq) hrepeats (Library.links_of_load hload hsome)

/-- A file that includes another and loads it as well while it runs. -/
def twice : Program where
  files := { texts := [("a.src", "#include \"b\"\nimport_code(\"b\")"), ("b.src", "x=1")] }
  settings := { nativeImports := false }

theorem keys_eq_singleton_iff_twice :
    ∃ outs, (twice.build "a.src").1 = .ok outs ∧ outs.map Prod.fst = ["a.src", "b.src"] ∧
      ∃ q b, Relation.ReflTransGen twice.files.Links "a.src" q ∧ twice.files.Repeats q b ∧
        Relation.ReflTransGen twice.files.Links "a.src" b ∧ b ≠ "a.src" := by
  have hsome : (twice.build "a.src").1.toOption.map (·.map Prod.fst) = some ["a.src", "b.src"] := by
    decide +kernel
  obtain ⟨outs, houts, hkeys⟩ := Option.map_eq_some_iff.mp hsome
  have hbuild := Except.toOption_eq_some houts
  have hentry : twice.files.resolve "" "a.src" = "a.src" := by decide +kernel
  have hiff := keys_eq_singleton_iff (.inl rfl) hbuild
  rw [hentry, hkeys] at hiff
  have hnot := (not_congr hiff).mp (by decide)
  push Not at hnot
  obtain ⟨q, b, hq, hrepeats, hb, hne⟩ := hnot
  exact ⟨outs, hbuild, hkeys, q, b, hq, hrepeats, hb, hne⟩

/-! ## Scripts that are followed -/

/-- The calls of a module, each with the place where the script it loads is found. -/
def calls (p : Program) (m : Module) : Layout :=
  (m.script.nodes.filterMap Node.native?).map fun path =>
    .text s!"{nativeImport}({quote (p.relocate (p.files.resolve m.path path))})"

/-- **The outputs from `path` on are complete**: there is one for each script that is loaded while another
runs, made from the modules that script leads to, and every call in its text finds its script. -/
structure Complete (p : Program) (lib : Library) (path : String) (outs : List (String × String)) :
    Prop where
  nodup : (outs.map Prod.fst).Nodup
  mem_iff : ∀ q, q ∈ outs.map Prod.fst ↔ Relation.ReflTransGen p.files.Summons path q
  made : ∀ e ∈ outs, ∃ g n chunks, Graph.resolve lib e.1 = .ok g ∧
    (∀ q, q ∈ g.paths ↔ Relation.ReflTransGen p.files.Links e.1 q) ∧
    g.bundle p.settings p.relocate = .ok e.2 ∧ n.settings = p.settings ∧ g.Renders n chunks e.2 ∧
    ∀ c ∈ chunks, (c.modules g).flatMap p.calls <+~ c.layout ∧
      ∀ m ∈ c.modules g, ∀ path ∈ m.script.nodes.filterMap Node.native?,
        p.files.resolve m.path path ∈ outs.map Prod.fst

/-- Where calls are followed, an output loads what the modules it is made from call. -/
theorem mem_targets_iff_summons (hsound : lib.Sound p.files) (hclosed : lib.Closed)
    (hnative : lib.nativeImports = true) {targets : List String} {text : String}
    (h : p.output lib a = .ok (targets, text)) (b : String) : b ∈ targets ↔ p.files.Summons a b := by
  obtain ⟨g, hg, rfl, -⟩ := output_eq_ok h
  obtain ⟨r, hr, -⟩ := Except.bind_eq_ok.mp hg
  have hr := Graph.resource_eq_ok hr
  rw [Library.mem_nativeTargets_iff hsound hg]
  refine exists_congr fun q => ?_
  rw [← Library.reaches_iff hsound hclosed hr]
  refine and_congr_right fun hreach => ?_
  obtain ⟨rq, hrq⟩ := Graph.resource_of_reaches hsound.path_of_resource hclosed hr hreach
  exact Library.crosses_iff_calls hsound hclosed hnative hrq

/-- **When the queue is empty, outputs are complete**. -/
theorem complete_of_drains (hnative : p.settings.nativeImports = true)
    (hdev : p.settings.devMode = false) (hsound : lib.Sound p.files) (hclosed : lib.Closed)
    (hlib : lib.nativeImports = true) (h : p.Drains lib [a] [] (.ok outs)) : p.Complete lib a outs := by
  have hmem : ∀ q, q ∈ outs.map Prod.fst ↔ Relation.ReflTransGen p.files.Summons a q := fun q =>
    h.mem_iff (mem_targets_iff_summons hsound hclosed hlib)
  refine ⟨h.nodup List.nodup_nil, hmem, fun e he => ?_⟩
  obtain ⟨targets, houtput, -⟩ := h.made he List.not_mem_nil
  obtain ⟨g, hg, -, htext⟩ := output_eq_ok houtput
  obtain ⟨r, hr, -⟩ := Except.bind_eq_ok.mp hg
  obtain ⟨hexploring, hvisits, -⟩ := Graph.exploring_of_resolve hsound.path_of_resource hg
  have hpaths : ∀ q, q ∈ g.paths ↔ Relation.ReflTransGen p.files.Links e.1 q := fun q =>
    ((hexploring.spans hvisits).mem_iff q).trans
      (Library.reaches_iff hsound hclosed (Graph.resource_eq_ok hr))
  obtain ⟨n, chunks, hsettings, hrelocate, hrenders⟩ := Graph.exists_renders hdev htext
  refine ⟨g, n, chunks, hg, hpaths, htext, hsettings, hrenders, fun c hc => ⟨?_, fun m hm path hpath => ?_⟩⟩
  · obtain ⟨w, hw, hrun⟩ := hrenders.written c hc
    have hsublist : ∀ m ∈ c.modules g,
        p.calls m <+ Scene.marksOf { naming := n, modules := g.modules } m := by
      intro m hm
      have hsame : p.calls m =
          Scene.calls { naming := n, modules := g.modules } (fun m => p.files.resolve m.path) m := by
        rw [Scene.calls, calls, ← hrelocate]
        rfl
      rw [hsame]
      refine Scene.calls_sublist ?_ ?_ fun path hpath =>
        Library.lookup_natives hsound hclosed hlib hg (Chunk.mem_modules hrenders.modules hc hm) hpath
      · show n.settings.nativeImports = true
        rw [hsettings, hnative]
      · show n.settings.devMode = false
        rw [hsettings, hdev]
    exact (List.Sublist.flatMap_right _ hsublist).subperm.trans (hw.marks_subperm hrun)
  · -- The module is in the graph of a script that has an output, so that script loads what it calls.
    obtain ⟨node, hnode, rfl⟩ := List.mem_map.mp (Chunk.mem_modules hrenders.modules hc hm)
    obtain ⟨r', hr', hscript⟩ := hexploring.fromFile node hnode
    have hreach := (hmem e.1).mp (List.mem_map_of_mem he)
    refine (hmem _).mpr (hreach.tail ⟨node.path, (hpaths _).mp (List.mem_map_of_mem hnode), r',
      hsound.content_of_resource hr', path, hscript ▸ hpath, rfl⟩)

/-- **Outputs are closed under what they load.**  Where calls are followed, a build comes to an end by
itself, and one that ends well yields the entry and all it leads to across calls. -/
theorem outputs_closed (hnative : p.settings.nativeImports = true) (hdev : p.settings.devMode = false)
    (entry : String) : ∃ t, Loading.Completes p.files (Loading.start p.files p.library entry) t ∧
      (p.build entry).2 = t.library ∧ (∀ e, t.failure = some e → (p.build entry).1 = .error e) ∧
      (t.failure = none → p.Drains t.library [p.files.resolve "" entry] [] (p.build entry).1) ∧
      ∀ outs, (p.build entry).1 = .ok outs → p.Complete t.library (p.files.resolve "" entry) outs := by
  obtain ⟨t, hcompletes, hload, hlibrary, hfailed, hdrains⟩ := p.exists_drains entry
  refine ⟨t, hcompletes, hlibrary, hfailed, hdrains, fun outs houts => ?_⟩
  have halive : t.failure = none := by
    cases hfailure : t.failure with
    | none => rfl
    | some e => cases houts.symm.trans (hfailed e hfailure)
  have hok : p.library.load p.files entry = (.ok (p.files.resolve "" entry), t.library) := by
    rw [hload, Loading.result, halive]
    rfl
  obtain ⟨hsound, hclosed, -⟩ := Library.closed_of_load hok
  obtain ⟨-, t', heq, -, -, hrun⟩ := Library.exists_underway_of_load hok
  have hlib : t.library.nativeImports = true := by
    rw [← heq, hrun.nativeImports]
    simp [hnative, hdev]
  exact complete_of_drains hnative hdev hsound hclosed hlib (houts ▸ hdrains halive)

/-- A file and the one it includes load a third while they run, and that loads the first. -/
def loop : Program where
  files := { texts := [("a.src", "#include \"b\"\nimport_code(\"c\")"),
    ("b.src", "import_code(\"c\")"), ("c.src", "import_code(\"a\")")] }
  settings := { nativeImports := true }
  relocate := ("out/" ++ ·)

theorem outputs_closed_loop : ∃ outs, (loop.build "a.src").1 = .ok outs ∧
    outs.map Prod.fst = ["a.src", "c.src"] ∧ loop.Complete (loop.build "a.src").2 "a.src" outs := by
  have hsome : (loop.build "a.src").1.toOption.map (·.map Prod.fst) = some ["a.src", "c.src"] := by
    decide +kernel
  obtain ⟨outs, houts, hkeys⟩ := Option.map_eq_some_iff.mp hsome
  have hbuild := Except.toOption_eq_some houts
  have hentry : loop.files.resolve "" "a.src" = "a.src" := by decide +kernel
  obtain ⟨t, -, hlibrary, -, -, hcomplete⟩ := outputs_closed (p := loop) rfl rfl "a.src"
  rw [hlibrary, ← hentry]
  exact ⟨outs, hbuild, hkeys, hcomplete outs hbuild⟩

end Program

end ScriptBundler
