import ScriptBundler.Proofs.Scanning
import ScriptBundler.Write.Basic

/-!
# Proofs/Quoting — a text that is written as a literal is read back

`quote v` is read as one string token that stands for `v`, wherever reading has come to and whatever
follows it but a quote (`scanFrom_quote`); and no string token of any text is spelled otherwise
(`raw_eq_quote`).  So what a writer takes from elsewhere and puts into a script as a literal (variables
of the environment, files, paths, ids) is in the tokens of what it writes.
-/

namespace ScriptBundler

open Token (Kind)

/-! ## A literal is read as the text it stands for -/

/-- The place after a literal that starts a text. -/
def Position.afterQuote (p : Position) (v : String) : Position := p.after (quote v).toList

/-- A text in quotes is read as the text. -/
theorem Lexeme.read_quote (v : String) {rest : List Char} (h : rest.head? ≠ some '"') :
    ∃ c cs, (quote v).toList = c :: cs ∧ read c (cs ++ rest) =
      { kind := .token (.string (quote v) v) none, text := c :: cs, rest } :=
  read_chars (k := .string (quote v) v) rfl h

/-- **A literal is read back**, wherever it stands. -/
theorem scanFrom_quote (p : Position) (found : Nat) (v : String) {rest : List Char}
    (h : rest.head? ≠ some '"') :
    scanFrom p found ((quote v).toList ++ rest) =
      (if Report.limit ≤ found then .done (p.afterQuote v)
        else scanFrom (p.afterQuote v) found rest).token
        ⟨.string (quote v) v, ⟨p, p.afterQuote v⟩⟩ := by
  obtain ⟨c, cs, hcs, hread⟩ := Lexeme.read_quote v h
  rw [Position.afterQuote, hcs, List.cons_append, scanFrom]
  simp only [hread]

theorem scans_quote (v : String) {rest : List Char} (h : rest.head? ≠ some '"') :
    Scans (quote v).toList [.string (quote v) v] rest :=
  .token (k := .string (quote v) v) rfl h

/-! ## Every literal is spelled one way -/

/-- A text that does not close is read up to its end. -/
theorem Quoted.consumed_of_not_closed (cs : List Char) (h : (scan cs).closed = false) :
    (scan cs).consumed = escape (scan cs).value := by
  fun_induction scan cs with
  | case1 => rfl
  | case2 cs ih => simp [Reading.push, escape, ih h]
  | case3 => cases h
  | case4 c cs _ hc ih => simp [Reading.push, escape, hc, ih h]

/-- A literal that the text ends inside of is closed there, so it is spelled like any other. -/
theorem Lexeme.ofQuoted_kind (cs : List Char) : ∃ v f, (ofQuoted cs).kind =
    .token (.string (quote v) v) f := by
  refine ⟨String.ofList (Quoted.scan cs).value,
    if (Quoted.scan cs).closed then none else some .unterminatedString, ?_⟩
  simp only [ofQuoted, Class.token.injEq, Kind.string.injEq, and_true]
  rw [quote, String.toList_ofList]
  cases hclosed : (Quoted.scan cs).closed with
  | true => simp [Quoted.consumed_of_closed cs hclosed]
  | false => simp [Quoted.consumed_of_not_closed cs hclosed]

/-- A text is spelled as its value in quotes. -/
theorem Lexeme.read_string {c : Char} {cs : List Char} {raw value : String} {f : Option Fault}
    (h : (read c cs).kind = .token (.string raw value) f) : raw = quote value := by
  revert h
  fun_cases read c cs with
  | case1 => simp
  | case2 => simp
  | case3 =>
    intro h
    obtain ⟨v, g, hkind⟩ := ofQuoted_kind cs
    rw [hkind] at h
    simp only [Class.token.injEq, Kind.string.injEq] at h
    rw [← h.1.1, ← h.1.2]
  | case4 =>
    simp only [ofNumeral]
    split <;> simp
  | case5 =>
    simp only [ofWord]
    split <;> simp
  | case6 => simp [ofComment]
  | case7 =>
    unfold ofSign
    split <;> simp

/-- **No string token is spelled otherwise.** -/
theorem raw_eq_quote (p : Position) (found : Nat) (cs : List Char) :
    ∀ t ∈ (scanFrom p found cs).tokens, ∀ raw value, t.kind = .string raw value →
      raw = quote value := by
  refine scanFrom_induct (motive := fun _ ts => ∀ t ∈ ts, ∀ raw value, t.kind = .string raw value →
    raw = quote value) ?_ ?_ ?_ p found cs
  · intro p t ht raw value hkind
    obtain rfl := List.mem_singleton.mp ht
    cases hkind
  · exact fun _ _ _ h => h
  · refine fun p c cs k f ts hread _ h => List.forall_mem_cons.mpr ⟨?_, h⟩
    rintro raw value rfl
    exact Lexeme.read_string hread

/-! ## Texts that are put into a script -/

/-- A text is read as tokens of the kinds `ks`, without a fault. -/
def ReadAs (text : String) (ks : List Kind) : Prop :=
  (scan text).tokens.map Token.kind = ks ++ [.eof] ∧ (scan text).faults = []

/-- The text that a directive stands for, if it stands for one. -/
def Scene.text? (s : Scene) : ValueDirective → Option String
  | .envar name => s.settings.environmentVariables.lookup name
  | .inject path => s.active.bind (·.injections.lookup path)
  | .line => none
  | .filename => s.active.map (·.path)

/-- Where directives do not stay, a text is written in quotes. -/
theorem Scene.value_of_text? {s : Scene} {d : ValueDirective} {v : String}
    (hdev : s.settings.devMode = false) (h : s.text? d = some v) (line : Nat) :
    s.value d line = quote v := by
  cases d with
  | line => cases h
  | envar name => simp [value, hdev, show s.settings.environmentVariables.lookup name = _ from h,
      quoteOrNull]
  | inject path => simp [value, hdev, show s.active.bind (·.injections.lookup path) = _ from h,
      quoteOrNull]
  | filename => simp [value, hdev, show s.active.map (·.path) = _ from h, quoteOrNull]

/-- How a writer separates a name from what it is given. -/
def IsEquals (equals : String) : Prop := equals = "=" ∨ equals = " = "

/-- An equals sign with blanks or without. -/
theorem IsEquals.scans {equals : String} (h : IsEquals equals) {c : Char} (cs : List Char)
    (hc : isWordStart c = true) : Scans equals.toList [.symbol .assign] (c :: cs) := by
  have hopens : opensOperand c = true := by simp [opensOperand, isWordChar, hc]
  rcases h with rfl | rfl
  · exact .token (k := .symbol .assign) trivial
      (.inr ⟨Symbol.ends_of_opensOperand hopens, fun hdot => absurd hdot (by decide)⟩)
  · refine (Scans.blank (c := ' ') rfl _).append ((Scans.token (k := .symbol .assign) trivial
      (.inr ⟨Symbol.ends_of_isBlank rfl, fun hdot => absurd hdot (by decide)⟩)).append (Scans.blank rfl _))

theorem scans_name {x : String} (hx : IsName x) {rest : List Char}
    (h : ∀ c ∈ rest.head?, isWordChar c = false) : Scans x.toList [.identifier x] rest :=
  .token (k := .identifier x) hx h

theorem IsEquals.ends {equals : String} (h : IsEquals equals) (rest : List Char) :
    ∀ c ∈ (equals.toList ++ rest).head?, isWordChar c = false := by
  rcases h with rfl | rfl <;> simp <;> decide

/-- A sign ends the word before it. -/
theorem Symbol.endsWord (s : Symbol) (rest : List Char) :
    ∀ c ∈ (s.spelling.toList ++ rest).head?, isWordChar c = false := by
  obtain ⟨c, cs, hcs, -, -, -, hdigit, hstart⟩ := first s
  simp [hcs, isWordChar, hdigit, hstart]

theorem scans_solid {s : Symbol} (hs : s.isSolid = true) (rest : List Char) :
    Scans s.spelling.toList [.symbol s] rest :=
  .token (k := .symbol s) trivial (.inl hs)

/-- A literal between two signs. -/
theorem scans_between {s t : Symbol} (hs : s.isSolid = true) (ht : t.isSolid = true) (v : String)
    (rest : List Char) :
    Scans (s.spelling.toList ++ ((quote v).toList ++ t.spelling.toList))
      [.symbol s, .string (quote v) v, .symbol t] rest := by
  refine (scans_solid hs _).append ((scans_quote v ?_).append (scans_solid ht rest))
  obtain ⟨c, cs, hcs, -, -, hquote, -⟩ := Symbol.first t
  rw [hcs]
  simpa using hquote

/-- A literal between two signs after a name. -/
theorem scans_applied {x : String} (hx : IsName x) {s t : Symbol} (hs : s.isSolid = true)
    (ht : t.isSolid = true) (v : String) (rest : List Char) :
    Scans (x.toList ++ (s.spelling.toList ++ ((quote v).toList ++ t.spelling.toList)))
      [.identifier x, .symbol s, .string (quote v) v, .symbol t] rest := by
  refine (scans_name hx ?_).append (scans_between hs ht v rest)
  rw [List.append_assoc]
  exact s.endsWord _

/-- What is scanned up to its end is read so. -/
theorem readAs_of_scans {text : String} {cs : List Char} {ks : List Kind} (htext : text.toList = cs)
    (h : Scans cs ks []) : ReadAs text ks := by
  have := scan_of_scans h
  rwa [← htext, String.ofList_toList] at this

namespace Scene

variable {s : Scene} {equals : String}

/-- The id of a module is read back from where it is loaded. -/
theorem readAs_importText (hequals : IsEquals equals) {name path : String} {m : Module}
    (hname : IsName name) (hrequire : IsName (s.naming.runtimeName "__REQUIRE"))
    (hm : s.import? path = some m) :
    ReadAs (s.importText equals name path)
      [.identifier name, .symbol .assign, .identifier (s.naming.runtimeName "__REQUIRE"),
        .symbol .openParen, .string (quote (s.naming.moduleId m.path)) (s.naming.moduleId m.path),
        .symbol .closeParen] := by
  have hcall := scans_applied hrequire (s := .openParen) (t := .closeParen) rfl rfl
    (s.naming.moduleId m.path) []
  obtain ⟨c, cs, hcs, hc, -⟩ := hrequire.word
  have hsign := hequals.scans (cs ++ (Symbol.openParen.spelling.toList ++
    ((quote (s.naming.moduleId m.path)).toList ++ Symbol.closeParen.spelling.toList)) ++ []) hc
  rw [← List.cons_append, ← List.cons_append, ← hcs] at hsign
  refine readAs_of_scans ?_ ((scans_name hname ?_).append (hsign.append hcall))
  · simp only [importText, hm, String.toList_append, List.append_assoc, toString, Symbol.spelling]
  · rw [List.append_assoc]
    exact hequals.ends _

/-- The id of a module is read back from where it is registered. -/
theorem readAs_moduleHeader (hequals : IsEquals equals)
    (htable : IsName (s.naming.runtimeName "__MODULES"))
    (hparam : IsName (s.naming.runtimeName "module")) (id : String) :
    ReadAs (s.moduleHeader equals id)
      [.identifier (s.naming.runtimeName "__MODULES"), .symbol .openBracket, .string (quote id) id,
        .symbol .closeBracket, .symbol .assign, .keyword .function, .symbol .openParen,
        .identifier (s.naming.runtimeName "module"), .symbol .closeParen] := by
  have hparams := (scans_solid (s := .openParen) rfl _).append ((scans_name hparam
    (Symbol.endsWord .closeParen [])).append (scans_solid (s := .closeParen) rfl []))
  have hfunction := (Scans.token (k := .keyword .function) trivial (by
    rw [List.append_assoc]
    exact Symbol.endsWord .openParen _)).append hparams
  refine readAs_of_scans ?_ ((scans_applied htable (s := .openBracket) (t := .closeBracket) rfl rfl id
    _).append ((hequals.scans _ rfl).append hfunction))
  simp only [moduleHeader, String.toList_append, List.append_assoc, toString, Symbol.spelling,
    Kind.chars, Kind.spelling, Keyword.spelling]
  rfl

/-- The path of a script that is loaded later is read back from the call that loads it. -/
theorem readAs_nativeCall? {callee : Expr} {args : List Expr} {text : String}
    (h : s.nativeCall? callee args = some text) : ∃ m raw value target span comments,
    s.linked? = some m ∧ args = [⟨.literal (.string raw value), span, comments⟩] ∧
    m.natives.lookup value = some target ∧
    ReadAs text [.identifier nativeImport, .symbol .openParen,
      .string (quote (s.naming.relocate target)) (s.naming.relocate target), .symbol .closeParen] := by
  unfold nativeCall? at h
  split at h
  · rename_i name raw value span comments hcallee
    split at h
    · obtain ⟨m, hm, target, htarget, htext⟩ : ∃ m, s.linked? = some m ∧ ∃ target,
          m.natives.lookup value = some target ∧
          s!"{nativeImport}({quote (s.naming.relocate target)})" = text := by
        simpa [Option.bind_eq_some_iff] using h
      have hname : IsName nativeImport := by decide
      refine ⟨m, raw, value, target, span, comments, hm, rfl, htarget, readAs_of_scans ?_
        (scans_applied hname (s := .openParen) (t := .closeParen) rfl rfl _ [])⟩
      simp only [← htext, String.toList_append, List.append_assoc, toString, Symbol.spelling]
    · cases h
  · cases h

end Scene

/-- **Quoting is undone by reading**: a literal is read as one token that stands for what was quoted,
before whatever does not start with a quote, and no string token of any text is spelled otherwise.  So
what a directive stands for, what a module is registered under and what a script is loaded from is in
the tokens of what is written for it. -/
theorem scan_quote (v : String) :
    let after := Position.first.afterQuote v
    let token : Token := ⟨.string (quote v) v, ⟨.first, after⟩⟩
    scan (quote v) = ⟨[token, ⟨.eof, .point after⟩], []⟩ ∧
    (∀ rest : String, rest.toList.head? ≠ some '"' →
      scan (quote v ++ rest) = (scanFrom after 0 rest.toList).token token) ∧
    (∀ text, ∀ t ∈ (scan text).tokens, ∀ raw value, t.kind = .string raw value → raw = quote value) ∧
    (∀ scene : Scene, ∀ d line, scene.settings.devMode = false → scene.text? d = some v →
      ReadAs (scene.value d line) [.string (quote v) v]) ∧
    (∀ scene : Scene, ∀ equals name path m, IsEquals equals → IsName name →
      IsName (scene.naming.runtimeName "__REQUIRE") → scene.import? path = some m →
      scene.naming.moduleId m.path = v →
      ReadAs (scene.importText equals name path)
        [.identifier name, .symbol .assign, .identifier (scene.naming.runtimeName "__REQUIRE"),
          .symbol .openParen, .string (quote v) v, .symbol .closeParen]) ∧
    (∀ scene : Scene, ∀ equals, IsEquals equals → IsName (scene.naming.runtimeName "__MODULES") →
      IsName (scene.naming.runtimeName "module") →
      ReadAs (scene.moduleHeader equals v)
        [.identifier (scene.naming.runtimeName "__MODULES"), .symbol .openBracket,
          .string (quote v) v, .symbol .closeBracket, .symbol .assign, .keyword .function,
          .symbol .openParen, .identifier (scene.naming.runtimeName "module"), .symbol .closeParen]) ∧
    ∀ scene : Scene, ∀ callee args text, scene.nativeCall? callee args = some text →
      ∃ m raw value target span comments, scene.linked? = some m ∧
        args = [⟨.literal (.string raw value), span, comments⟩] ∧
        m.natives.lookup value = some target ∧
        ReadAs text [.identifier nativeImport, .symbol .openParen,
          .string (quote (scene.naming.relocate target)) (scene.naming.relocate target),
          .symbol .closeParen] := by
  intro after token
  have hfollowed : ∀ rest : String, rest.toList.head? ≠ some '"' →
      scan (quote v ++ rest) = (scanFrom after 0 rest.toList).token token := by
    intro rest hrest
    rw [scan, String.toList_append, scanFrom_quote _ _ _ hrest]
    rfl
  have halone : scan (quote v) = ⟨[token, ⟨.eof, .point after⟩], []⟩ := by
    have h := hfollowed "" (by simp)
    rwa [String.append_empty, show "".toList = [] from rfl, scanFrom] at h
  refine ⟨halone, hfollowed, fun text => raw_eq_quote _ _ _, fun scene d line hdev htext => ?_, ?_,
    fun scene equals hequals htable hparam => Scene.readAs_moduleHeader hequals htable hparam v,
    fun scene callee args text => Scene.readAs_nativeCall?⟩
  · rw [Scene.value_of_text? hdev htext, ReadAs, halone]
    exact ⟨rfl, rfl⟩
  · rintro scene equals name path m hequals hname hrequire hm rfl
    exact Scene.readAs_importText hequals hname hrequire hm

end ScriptBundler
