/-
# Nothing is lost, nothing comes twice

A file that includes no other one is parsed into a tree and scripts that hold its texts, comments
and document types, each once (`contents_conserved`).  So it is with the code blocks outside start
tags and directives, if no server comment or directive stands in one of these, but for one slip: a
server script passes over a directive token by token, and takes the code in the values of its
attributes for its own (`strayCodes`), where everywhere else such code belongs to the directive
alone.
-/

import ServerMarkup.Parse.Output
import ServerMarkup.Proofs.Content.Outside
import ServerMarkup.Proofs.Nesting.Agreement

namespace ServerMarkup

/-- Before the first item nothing is held. -/
theorem Builder.held_start (file var : String) (outer : Outer) (o : Options) (path text : String)
    (registry : Registry) :
    (start file var outer).held (.start o path text registry) = [] := by
  have scripts : (Session.start o path text registry).document.scripts = [] := by
    obtain ⟨imports, eq⟩ := Session.exists_start o path text registry
    rw [eq]
    rfl
  rw [held, Document.scriptContents, scripts]
  rfl

namespace Project

variable (p : Project) (path text : String) (registry : Registry)

/-- The parse of the files that the file includes. -/
def nested : Nested :=
  parseFile p (includeDepth p (normalPath path) text - 1) [normalPath path]

/-- The builder of the file and its session when some items have been built. -/
def after (items : List Item) : Except Failure Builder × Session :=
  (items.foldlM (buildItem p [normalPath path] (p.nested path text))
    (.start (normalPath path) "ctrl" .none)).run.run
      (.start p.options (normalPath path) text (registry.addDefaults p.options))

/-- The code blocks of the file that stand in a directive in a server script. -/
def strayCodes : List LeafContent :=
  scriptDirectiveCodes p [normalPath path] (p.nested path text)
    (.start (normalPath path) "ctrl" .none)
    (.start p.options (normalPath path) text (registry.addDefaults p.options))
    (itemsOf (tokenize (normalPath path) text))

theorem includeDepth_eq_succ : ∃ n, includeDepth p path text = n + 1 :=
  Nat.exists_eq_succ_of_ne_zero (Nat.pos_iff_ne_zero.1 (Nat.pow_pos (Nat.succ_pos _)))

variable {p path text registry} {body : Body} {s : Session}

/-- A parse builds the items of the file and then comes to the end of its last token. -/
theorem exists_finish_of_run (run : p.run path text registry = (.ok body, s)) :
    ∃ b s₁, p.after path text registry (itemsOf (tokenize (normalPath path) text)) =
        (.ok b, s₁) ∧ (b.finish (((tokenize (normalPath path) text).getLast?.map
          (·.span.stop)).getD .first)).run.run s₁ = (.ok body, s) := by
  obtain ⟨n, depth⟩ := includeDepth_eq_succ p (normalPath path) text
  unfold Project.run at run
  dsimp only at run
  rw [depth, parseFile, buildItems, run_bind] at run
  rw [after, nested, depth, Nat.add_sub_cancel]
  split at run
  · next b s₁ built => exact ⟨b, s₁, built, run⟩
  · cases run

/-- A parse builds the items of the file and then comes to its end. -/
theorem exists_after_of_run (run : p.run path text registry = (.ok body, s)) :
    ∃ b s₁ stop, p.after path text registry (itemsOf (tokenize (normalPath path) text)) =
        (.ok b, s₁) ∧ (b.finish stop).run.run s₁ = (.ok body, s) := by
  obtain ⟨b, s₁, built, finish⟩ := exists_finish_of_run run
  exact ⟨b, s₁, _, built, finish⟩

end Project

/-- **A file without included files keeps its texts and its code.**  The tree and the scripts hold
the texts of its tokens, each once.  If its server comments and directives stand in no start tag and
in no other directive, they hold the code blocks outside these, and besides only those that stand in
a directive in a server script. -/
theorem contents_conserved {p : Project} {path text : String} {registry : Registry} {body : Body}
    {s : Session} (run : p.run path text registry = (.ok body, s))
    (alone : s.document.includes = []) :
    let ts := tokenize (normalPath path) text
    let held := (s.completed body.children).document.contents
    (held.filter LeafContent.isText).Perm (ts.filterMap Token.textLeaf?) ∧
      (Unnested ts →
        (held.filter LeafContent.isCode).Perm
            (codesOutside ts ++ p.strayCodes path text registry) ∧
          ((held.filter LeafContent.isCode).Perm (codesOutside ts) ↔
            p.strayCodes path text registry = [])) := by
  intro ts held
  obtain ⟨b, s₁, stop, built, finish⟩ := Project.exists_after_of_run run
  have grown := adds_foldlM p _ _ (sound_parseFile p _ _) (Builder.sound_start _ _ .none) built
  obtain ⟨bare, whole⟩ := b.held_finish grown.sound finish
  obtain ⟨alone₁, held₁⟩ := whole alone
  -- The tree and the scripts hold what has been fed: nothing is left in templates at the top.
  have all : held.Perm (fed p [normalPath path] (p.nested path text)
      (.start (normalPath path) "ctrl" .none)
      (.start p.options (normalPath path) text (registry.addDefaults p.options)) (itemsOf ts)) := by
    have fed := (grown.held alone₁).2
    rw [Builder.held_start, List.nil_append] at fed
    have children : body.contents = ServerMarkup.contents body.children := by
      rw [Body.contents, bare (by rw [grown.outer]; rfl), templateContents_nil, List.append_nil]
    rw [children] at held₁
    exact held₁.trans fed
  have closed : ScriptsClosed ts := LexerState.scriptsClosed_tokens (LexerState.on_start _)
  refine ⟨(all.filter _).trans (.of_eq (texts_fed p _ _ closed (.inl rfl) built)), ?_⟩
  intro unnested
  have own : codesOutside ts = ownCodes (itemsOf ts) := LexerState.codes_outside unnested
  have codes : (held.filter LeafContent.isCode).Perm
      (codesOutside ts ++ p.strayCodes path text registry) := by
    rw [own]
    exact (all.filter _).trans (codes_fed p _ _ closed (.inl rfl) built)
  refine ⟨codes, fun same => ?_, fun none => ?_⟩
  · have size := (same.symm.trans codes).length_eq
    rw [List.length_append] at size
    exact List.eq_nil_of_length_eq_zero (by omega)
  · rwa [none, List.append_nil] at codes

/-- A page with code in a server script, in an attribute and in a control. -/
def mixed : String :=
  "<script runat=server>a<%=x%></script><Panel b='<%=y%>'><!--c--><%z%></Panel>"

/-- The page keeps its texts and the code outside its tags. -/
theorem contents_mixed : ∃ body s, Project.run .bare "page.aspx" mixed .empty = (.ok body, s) ∧
    ((s.completed body.children).document.contents.filter LeafContent.isText).Perm
      ((tokenize (normalPath "page.aspx") mixed).filterMap Token.textLeaf?) ∧
    ((s.completed body.children).document.contents.filter LeafContent.isCode).Perm
      (codesOutside (tokenize (normalPath "page.aspx") mixed)) := by
  have ends (x : Except Failure Body × Session)
      (h : (x.1.isOk && x.2.document.includes.isEmpty) = true) :
      ∃ body s, x = (.ok body, s) ∧ s.document.includes = [] := by
    obtain ⟨_ | body, s⟩ := x
    · cases h
    · exact ⟨body, s, rfl, by simpa [Except.isOk, Except.toBool] using h⟩
  obtain ⟨body, s, run, alone⟩ := ends (Project.run .bare "page.aspx" mixed .empty)
    (by decide +kernel)
  obtain ⟨texts, codes⟩ := contents_conserved run alone
  exact ⟨body, s, run, texts, (codes (by decide +kernel)).2.2 (by decide +kernel)⟩

/-- A page with code in a directive in a server script. -/
def astray : String :=
  "<script runat=server><%@ Page a=\"<%=x%>\" %></script>"

/-- The script takes the code in the directive for its own. -/
theorem contents_astray : ¬ ∀ body s, Project.run .bare "page.aspx" astray .empty = (.ok body, s) →
    s.document.includes = [] → Unnested (tokenize (normalPath "page.aspx") astray) →
    ((s.completed body.children).document.contents.filter LeafContent.isCode).Perm
      (codesOutside (tokenize (normalPath "page.aspx") astray)) := by
  have taken (x : Except Failure Body × Session)
      (h : (x.1.toOption.any fun body => x.2.document.includes.isEmpty &&
        (x.2.document.scriptContents.countP LeafContent.isCode == 1)) = true) :
      ∃ body s, x = (.ok body, s) ∧ s.document.includes = [] ∧
        s.document.scriptContents.countP LeafContent.isCode = 1 := by
    obtain ⟨_ | body, s⟩ := x
    · cases h
    · exact ⟨body, s, rfl, by simpa [Except.toOption] using h⟩
  obtain ⟨body, s, run, alone, one⟩ := taken (Project.run .bare "page.aspx" astray .empty)
    (by decide +kernel)
  have none : codesOutside (tokenize (normalPath "page.aspx") astray) = [] := by decide +kernel
  intro h
  have same := (h body s run alone (by decide +kernel)).length_eq
  rw [none, ← List.countP_eq_length_filter, Document.contents, List.countP_append] at same
  change _ + s.document.scriptContents.countP _ = 0 at same
  omega

end ServerMarkup
