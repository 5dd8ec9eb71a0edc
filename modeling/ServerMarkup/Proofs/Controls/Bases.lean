/-
# The base of a user control

A user control has one base for those who parse its file and one for those who register it.  Both
are the type that an `Inherits` names, or the default one (`Project.baseNamed`), but it is the first
`Inherits` in the imports of the control for the one, and the last that begins with literal text in
the imports of the registering page for the other.  They are the same type exactly if these two name
the same (`userControl_eq_iff`).  A directive that names two types shows the difference
(`userControl_differs`).
-/

import ServerMarkup.Proofs.Content.Conservation
import ServerMarkup.Proofs.Controls.Scan
import ServerMarkup.Proofs.Controls.Silent
import ServerMarkup.Proofs.Tree.Growth
import ServerMarkup.Types.Catalog

namespace ServerMarkup
namespace Project

variable (p : Project)

/-! ### Looking a name up -/

/-- The first type that is found under one of the namespaces and names, whatever the session. -/
def lookupFirst : List (String × String) → Except Failure (Option TypeRef)
  | [] => .ok none
  | (space, name) :: rest =>
    match p.resolver.resolve space name with
    | .ok (some type) => .ok (some type)
    | .ok none => lookupFirst rest
    | .error message => .error (.resolver message)

/-- The type that a name stands for where the namespaces are imported. -/
def lookup (imports : List String) (name : String) : Except Failure (Option TypeRef) :=
  p.lookupFirst (candidates imports name)

/-- The base of a user control by its `Inherits`, where the namespaces are imported. -/
def baseNamed (imports : List String) (name : Option Excerpt) : Except Failure TypeRef :=
  match name with
  | some name => (p.lookup imports name.value).map (·.getD (.ofDotted p.options.controlBaseType))
  | none => .ok (.ofDotted p.options.controlBaseType)

/-- What a file inherits by the `Inherits` of a main directive of the kind, where the namespaces are
imported. -/
def inheritedBase (kind : DirectiveKind) (imports : List String) (name : Option Excerpt) :
    Except Failure (Option TypeRef) :=
  match name with
  | some name => p.lookup imports name.value
  | none => .ok (some (.ofDotted
      (if kind = .control then p.options.controlBaseType else p.options.pageBaseType)))

/-- A name that is found as it stands is found whatever is imported. -/
theorem lookup_of_resolve {name : String} {t : TypeRef} (some : (trimmed name).isEmpty = false)
    (found : p.resolver.resolve (TypeRef.ofDotted (trimmed name)).space
      (TypeRef.ofDotted (trimmed name)).name = .ok (.some t)) (imports : List String) :
    p.lookup imports name = .ok (.some t) := by
  rw [lookup, candidates, if_neg (ne_true_of_eq_false some), List.map_cons, lookupFirst]
  dsimp only
  rw [found]

theorem run_resolveFirst (names : List (String × String)) (s : Session) :
    (p.resolveFirst names).run.run s = (p.lookupFirst names, s) := by
  induction names with
  | nil => rfl
  | cons name names ih =>
    rw [resolveFirst, run_bind, resolve, lookupFirst]
    cases p.resolver.resolve name.1 name.2 with
    | error message => rfl
    | ok type =>
      cases type with
      | none => exact ih
      | some type => rfl

theorem run_resolveName (name : String) (s : Session) :
    (p.resolveName name).run.run s = (p.lookup s.document.imports name, s) := by
  have got : (get : Parse Session).run.run s = (.ok s, s) := rfl
  rw [resolveName, run_bind, got]
  dsimp only
  rw [run_resolveFirst, lookup]

/-- A user control is registered with the base that is found among the tokens of its file. -/
theorem run_userControl {path text : String} (stored : p.files.read path = .ok text) (s : Session) :
    (p.userControl path).run.run s =
      ((p.baseNamed s.document.imports (inheritedName? (tokenize path text))).map some, s) := by
  have file : p.files.isFile path = true := by
    unfold Files.read at stored
    split at stored
    · cases stored
    split at stored
    · next found => simp [Files.isFile, found]
    · cases stored
  have read : (p.readFile path).run.run s = (.ok text, s) := by
    rw [readFile, stored]
    rfl
  have base : (p.declaredBase path text).run.run s =
      (p.baseNamed s.document.imports (inheritedName? (tokenize path text)), s) := by
    unfold declaredBase
    cases inheritedName? (tokenize path text) with
    | none => rfl
    | some name =>
      dsimp only
      rw [run_bind, run_resolveName, baseNamed]
      cases p.lookup s.document.imports name.value <;> rfl
  rw [userControl, if_pos file, run_bind, read]
  dsimp only
  rw [run_bind, base]
  cases p.baseNamed s.document.imports (inheritedName? (tokenize path text)) <;> rfl

/-! ### What a main directive says -/

variable {p} {as : DirectiveAttributes} {kind : DirectiveKind} {base : Option TypeRef}
  {s s' : Session} {t : TypeRef}

/-- For a user control it is its base. -/
theorem baseNamed_of_inheritedBase {imports : List String} {name : Option Excerpt}
    (inherits : p.inheritedBase .control imports name = .ok (some t)) :
    p.baseNamed imports name = .ok t := by
  cases name with
  | none =>
    cases inherits
    rfl
  | some name =>
    have found : p.lookup imports name.value = .ok (some t) := inherits
    rw [baseNamed, found]
    rfl

/-- The base is looked up, which tells nothing else but its namespace. -/
theorem inheritedBase_of_run (run : (p.inheritedType kind as).run.run s = (.ok base, s')) :
    p.inheritedBase kind s.document.imports (as.find? "inherits") = .ok base ∧
      s'.document.language = s.document.language := by
  unfold inheritedType at run
  cases hn : as.find? "inherits" with
  | none =>
    rw [hn] at run
    cases run
    exact ⟨rfl, rfl⟩
  | some name =>
    rw [hn] at run
    obtain ⟨found, s₁, looked, rest⟩ := exists_of_run_bind run
    rw [run_resolveName] at looked
    obtain ⟨names, rfl⟩ := Prod.mk.inj looked
    rw [inheritedBase, names]
    cases found with
    | none =>
      obtain ⟨_, s₂, told, ends⟩ := exists_of_run_bind rest
      cases told
      cases ends
      exact ⟨rfl, rfl⟩
    | some type =>
      dsimp only at rest
      split at rest
      · cases rest
        exact ⟨rfl, rfl⟩
      · obtain ⟨_, s₂, written, ends⟩ := exists_of_run_bind rest
        cases written
        cases ends
        exact ⟨rfl, rfl⟩

/-- Setting properties of the page does not touch the language. -/
theorem language_of_setPageProperties {type : TypeRef}
    (run : (p.setPageProperties type as).run.run s = (.ok (), s')) :
    s'.document.language = s.document.language := by
  induction as generalizing s with
  | nil =>
    cases run
    rfl
  | cons a as ih =>
    obtain ⟨_, s₁, asked, rest⟩ := exists_of_run_bind run
    obtain ⟨_, s₂, set, rest⟩ := exists_of_run_bind rest
    obtain ⟨told, reported⟩ := (p.asks_askAll (pagePropertyQuestions type a)).reports s
    rw [asked] at reported
    have same : s₁.document = s.document := congrArg (·.document) reported
    cases set
    rw [ih rest, ← same]
    dsimp only
    unfold Session.setPageProperty
    split
    · rfl
    · split <;> rfl

/-- A file has the language and the base that its main directive names. -/
theorem says_of_describe (run : (p.describe kind as).run.run s = (.ok (), s')) :
    s'.described = true ∧
      s'.document.language = ((as.find? "language").map Excerpt.value).or s.document.language ∧
      p.inheritedBase kind s.document.imports (as.find? "inherits") =
        .ok s'.document.inherits := by
  unfold describe at run
  obtain ⟨_, s₁, met, rest⟩ := exists_of_run_bind run
  cases met
  extract_lets inherit at rest
  have ends {s₂ : Session} (run : (inherit ()).run.run s₂ = (.ok (), s'))
      (described : s₂.described = true) :
      s'.described = true ∧ s'.document.language = s₂.document.language ∧
        p.inheritedBase kind s₂.document.imports (as.find? "inherits") =
          .ok s'.document.inherits := by
    obtain ⟨type, s₃, inherited, rest⟩ := exists_of_run_bind run
    have said := (p.acts_inheritedType kind as s.document.span).silent.said_eq inherited
    have described₃ : s₃.described = true := (congrArg Prod.fst said).trans described
    obtain ⟨base, language⟩ := inheritedBase_of_run inherited
    cases type with
    | none =>
      cases rest
      exact ⟨described₃, language, base⟩
    | some type =>
      obtain ⟨_, s₄, properties, last⟩ := exists_of_run_bind rest
      cases last
      have said := (p.acts_setPageProperties type as s.document.span).silent.said_eq properties
      have kept := congrArg Prod.fst said
      exact ⟨kept.trans described₃, (language_of_setPageProperties properties).trans language, base⟩
  cases hl : as.find? "language" with
  | none =>
    rw [hl] at rest
    have said := ends rest rfl
    exact said
  | some language =>
    rw [hl] at rest
    obtain ⟨_, s₂, said, rest⟩ := exists_of_run_bind rest
    cases said
    have said := ends rest rfl
    exact said

/-! ### The two bases -/

section
variable {path text : String} {registry : Registry} {body : Body} {b : Builder} {s₁ : Session}
  {before rest : List Item} {item : Item} {span : Span}

/-- What a file inherits is what the first main directive names, where that is met. -/
theorem baseNamed_of_run (run : p.run path text registry = (.ok body, s))
    (split : itemsOf (tokenize (normalPath path) text) = before ++ item :: rest)
    (control : item.form = .directive .control as span) (plain : ∀ i ∈ before, i.isPlain = true)
    (reach : p.after path text registry before = (.ok b, s₁)) (outside : b.script = none)
    (inherits : s.document.inherits = some t) :
    p.baseNamed s₁.document.imports (as.find? "inherits") = .ok t := by
  obtain ⟨b₃, s₃, stop, built, finish⟩ := exists_after_of_run run
  rw [split, after, List.foldlM_append] at built
  obtain ⟨b', s₁', reach', built⟩ := exists_of_run_bind built
  obtain ⟨⟨rfl⟩, rfl⟩ := Prod.mk.inj (reach'.symm.trans reach)
  rw [List.foldlM_cons] at built
  obtain ⟨b₂, s₂, direct, built⟩ := exists_of_run_bind built
  -- Nothing has been said before the directive, which therefore describes the file.
  have first : s₁'.described = false :=
    congrArg Prod.fst ((silent_foldlM (.inl plain)).said_eq reach')
  have describe : (p.describe .control as).run.run s₁' = (.ok (), s₂) := by
    unfold buildItem at direct
    rw [outside, control] at direct
    obtain ⟨_, _, direct, done⟩ := exists_of_run_bind direct
    cases done
    unfold Project.direct at direct
    obtain ⟨_, _, got, direct⟩ := exists_of_run_bind direct
    cases got
    rwa [first] at direct
  obtain ⟨described, -, named⟩ := says_of_describe describe
  -- What has been said then stays.
  have later : s₃.said = s₂.said :=
    (silent_foldlM (.inr ⟨rfl, silent_parseFile p _ _⟩)).said_eq_of_described built described
  have last : s.said = s₃.said := (b₃.silent_finish stop).said_eq finish
  have stays : s.document.inherits = s₂.document.inherits := congrArg Prod.snd (last.trans later)
  rw [← stays, inherits] at named
  exact baseNamed_of_inheritedBase named

end

end Project

/-- **A user control is registered with what it inherits exactly if both readers find the same.**
What the parse of its file inherits is the first `Inherits` of its directive, in the imports of the
file; it is registered with the last one that begins with literal text, in the imports of the page
that registers it.  The directive is the first main one, stands in no server script and behind no
included file, and is written out up to its mark, as the directives before it are. -/
theorem userControl_eq_iff {p : Project} {path text : String} {registry : Registry} {body : Body}
    {b : Builder} {s s₀ s₁ : Session} {before rest : List Item} {item : Item}
    {as : DirectiveAttributes} {span : Span} {t : TypeRef}
    (stored : p.files.read (normalPath path) = .ok text)
    (run : p.run path text registry = (.ok body, s))
    (split : itemsOf (tokenize (normalPath path) text) = before ++ item :: rest)
    (control : item.form = .directive .control as span) (plain : ∀ i ∈ before, i.isPlain = true)
    (reach : p.after path text registry before = (.ok b, s₁)) (outside : b.script = none)
    (whole : ∀ i ∈ before ++ [item], i.isWhole = true) (inherits : s.document.inherits = some t) :
    (p.userControl (normalPath path)).run.run s₀ = (.ok (some t), s₀) ↔
      p.baseNamed s₀.document.imports (inheritedOfNames (valuedNames item.tokens)) =
        p.baseNamed s₁.document.imports (as.find? "inherits") := by
  have other : ∀ i ∈ before, ∀ kind as span, i.form = .directive kind as span →
      kind.isMain = false := by
    intro i mem kind as span form
    have plain := plain i mem
    rw [Item.isPlain, form] at plain
    simpa using plain
  rw [p.run_userControl stored, inheritedName?_of_control split control whole other,
    Project.baseNamed_of_run run split control plain reach outside inherits, Prod.mk.injEq]
  cases p.baseNamed s₀.document.imports (inheritedOfNames (valuedNames item.tokens)) <;>
    simp [Except.map]

/-- The types of a page and of a control. -/
def Catalog.bases : Catalog :=
  (Catalog.empty.add (.ofDotted "WebForms.UI.Page")).add (.ofDotted "WebForms.UI.Control")

/-- A project that holds one user control, `c.ascx`. -/
def Project.ofControl (text : String) : Project :=
  ⟨Catalog.bases.resolver, Files.empty.insert "c.ascx" text, .standard⟩

/-- A user control that names its base once. -/
def oneBase : String :=
  "<%@ Control Language=\"C#\" Inherits=\"WebForms.UI.Control\" %>"

/-- Whether the items are one Control directive, which names the base alike for both. -/
def isOneBase : List Item → Bool
  | [item] =>
    match item.form with
    | .directive .control as _ => item.isWhole &&
      ((as.find? "inherits").map Excerpt.value == some "WebForms.UI.Control" &&
        (inheritedOfNames (valuedNames item.tokens)).map Excerpt.value ==
          some "WebForms.UI.Control")
    | _ => false
  | _ => false

/-- The items of the user control are one directive, which names the base alike for both. -/
theorem item_oneBase : ∃ item as span, itemsOf (tokenize (normalPath "c.ascx") oneBase) = [item] ∧
    item.form = .directive .control as span ∧ item.isWhole = true ∧
      (as.find? "inherits").map Excerpt.value = some "WebForms.UI.Control" ∧
        (inheritedOfNames (valuedNames item.tokens)).map Excerpt.value =
          some "WebForms.UI.Control" := by
  have check : isOneBase (itemsOf (tokenize (normalPath "c.ascx") oneBase)) = true := by
    decide +kernel
  unfold isOneBase at check
  split at check
  · next item only =>
    split at check
    · next as span form =>
      simp only [Bool.and_eq_true, beq_iff_eq] at check
      exact ⟨item, as, span, only, form, check⟩
    · cases check
  · cases check

/-- Whatever a page imports, the user control is registered with what it inherits. -/
theorem userControl_oneBase : ∃ body s t,
    (Project.ofControl oneBase).run "c.ascx" oneBase .empty = (.ok body, s) ∧
      s.document.inherits = some t ∧ ∀ s₀ : Session,
        ((Project.ofControl oneBase).userControl (normalPath "c.ascx")).run.run s₀ =
          (.ok (some t), s₀) := by
  obtain ⟨body, s, run, inherits⟩ := exists_of_check
    ((Project.ofControl oneBase).run "c.ascx" oneBase .empty)
    (fun _ s => s.document.inherits == some (.ofDotted "WebForms.UI.Control")) (by decide +kernel)
  refine ⟨body, s, _, run, beq_iff_eq.1 inherits, fun s₀ => ?_⟩
  obtain ⟨item, as, span, split, control, whole, first, last⟩ := item_oneBase
  have named {name : Option Excerpt} (same : name.map Excerpt.value = some "WebForms.UI.Control")
      (imports : List String) : (Project.ofControl oneBase).baseNamed imports name =
        .ok (.ofDotted "WebForms.UI.Control") := by
    obtain ⟨e, rfl, value⟩ := Option.map_eq_some_iff.1 same
    have found : Catalog.bases.resolve (TypeRef.ofDotted (trimmed "WebForms.UI.Control")).space
        (TypeRef.ofDotted (trimmed "WebForms.UI.Control")).name =
          some (.ofDotted "WebForms.UI.Control") := by decide +kernel
    rw [Project.baseNamed, value,
      Project.lookup_of_resolve _ (by decide +kernel) (congrArg Except.ok found)]
    rfl
  have only : itemsOf (tokenize (normalPath "c.ascx") oneBase) = [] ++ item :: [] := split
  refine (userControl_eq_iff rfl run only control (List.forall_mem_nil _) rfl rfl
    (List.forall_mem_singleton.2 whole) (beq_iff_eq.1 inherits)).2 ?_
  rw [named last, named first]

/-- A user control that names two bases. -/
def twoBases : String :=
  "<%@ Control Inherits=\"WebForms.UI.Page\" Inherits=\"WebForms.UI.Control\" %>"

/-- The user control that names two bases is registered with the one that it does not inherit. -/
theorem userControl_differs : ¬ ∀ body s t s₀,
    (Project.ofControl twoBases).run "c.ascx" twoBases .empty = (.ok body, s) →
      s.document.inherits = some t →
        ((Project.ofControl twoBases).userControl "c.ascx").run.run s₀ = (.ok (some t), s₀) := by
  intro all
  obtain ⟨body, s, run, inherits⟩ := exists_of_check
    ((Project.ofControl twoBases).run "c.ascx" twoBases .empty)
    (fun _ s => s.document.inherits == some (.ofDotted "WebForms.UI.Page")) (by decide +kernel)
  let s₀ : Session := .start .standard "page.aspx" "" .empty
  have registered := all body s _ s₀ run (beq_iff_eq.1 inherits)
  have other : (((Project.ofControl twoBases).userControl "c.ascx").run.run s₀).1.toOption.join ≠
      some (.ofDotted "WebForms.UI.Page") := by decide +kernel
  rw [registered] at other
  exact other rfl

end ServerMarkup
