/-
# Reading is told by the text

What a reader comes to is told by the text that follows its cursor, not by the source that the text
stands in or by the place: from two cursors with one text behind them it emits tokens of the same
kinds and texts, and leaves the same text (`Reads.alike`).  Only the spans differ.

That is because a construct is told by the text that begins with it (`constructOf?`), and so are all
other things that a reader asks for.
-/

import ServerMarkup.Proofs.Lexer.Pieces

namespace ServerMarkup

/-- How far a fragment of a quoted value reaches in the text. -/
def fragmentOf (quote : Char) (cs : List Char) : Nat :=
  reach (fun _ cs => cs.head? == some quote || (constructOf? cs).isSome) cs

/-- Two parts are the same, but for the end of a tag. -/
def Part.Like : Part → Part → Prop
  | .body _, .body _ => True
  | part, part' => part = part'

/-- The body of a tag is like bodies of tags only. -/
theorem Part.Like.exists_body {e : TagEnd} {part : Part} (like : Part.Like (.body e) part) :
    ∃ e', part = .body e' := by
  cases part with
  | body e' => exact ⟨e', rfl⟩
  | _ => cases like

/-- Two reaches over one text are as long if they see their ends in the same places. -/
theorem reachFrom_congr {stop stop' : Nat → List Char → Bool} {i i' : Nat} {cs : List Char}
    (same : ∀ j < cs.length, stop (i + j) (cs.drop j) = stop' (i' + j) (cs.drop j)) :
    reachFrom stop i cs + i' = reachFrom stop' i' cs + i := by
  induction cs generalizing i i' with
  | nil => exact Nat.add_comm i i'
  | cons c cs ih =>
    have first : stop i (c :: cs) = stop' i' (c :: cs) := same 0 (Nat.succ_pos _)
    rw [reachFrom, reachFrom, first]
    split
    · exact Nat.add_comm i i'
    · have later := @ih (i + 1) (i' + 1) fun j hj => by
        have := same (j + 1) (Nat.succ_lt_succ hj)
        rwa [List.drop_succ_cons, ← Nat.add_assoc, ← Nat.add_assoc, Nat.add_right_comm,
          Nat.add_right_comm i'] at this
      omega

/-- Two reaches over one text are the same if they see their ends in the same places. -/
theorem reach_congr {stop stop' : Nat → List Char → Bool} {cs : List Char}
    (same : ∀ j < cs.length, stop j (cs.drop j) = stop' j (cs.drop j)) :
    reach stop cs = reach stop' cs :=
  @reachFrom_congr stop stop' 0 0 cs fun j hj => by simpa using same j hj

/-- A fragment of a quoted value reaches as far as its text says. -/
theorem fragmentReach_eq_fragmentOf {s : Source} {c : Cursor} (honest : s.Honest) (on : c.On s)
    (q : Char) : fragmentReach s q c = fragmentOf q c.rest := by
  refine reach_congr fun j within => ?_
  have told := construct?_eq_constructOf? honest (on.skip j)
  rw [Cursor.offset_skip, Nat.min_eq_left (Nat.le_of_lt within)] at told
  exact congrArg (_ || Option.isSome ·) told

/-! ### What a part goes on with -/

/-- What the body of a tag or of a directive goes on with. -/
inductive Going where
  | cut
  | opened
  | selfClosed
  | construct
  | attribute
  | stray
deriving DecidableEq, Repr

/-- What the body of a tag goes on with in the text. -/
def Going.tag (cs : List Char) : Going :=
  if cs = [] then .cut
  else if ['>'].isPrefixOf cs then .opened
  else if ['/', '>'].isPrefixOf cs then .selfClosed
  else if (constructOf? cs).isSome then .construct
  else if endsName .tag cs then .stray
  else .attribute

/-- What a directive goes on with in the text. -/
def Going.directive (cs : List Char) : Going :=
  if cs = [] then .cut
  else if ['%', '>'].isPrefixOf cs then .opened
  else if endsName .directive cs then .stray
  else .attribute

namespace Going

variable {cs : List Char}

/-- Behind a `>` a tag is open. -/
theorem tag_opened (closed : ['>'].isPrefixOf cs = true) : tag cs = .opened := by
  cases cs with
  | nil => cases closed
  | cons x cs => rw [tag, if_neg (List.cons_ne_nil x cs), if_pos closed]

/-- Behind a `/>` a tag is closed itself. -/
theorem tag_selfClosed (closed : ['/', '>'].isPrefixOf cs = true) : tag cs = .selfClosed := by
  obtain ⟨ys, rfl⟩ := List.isPrefixOf_iff_prefix.1 closed
  rfl

/-- Where a construct stands, a tag goes on with it. -/
theorem tag_construct (found : constructOf? cs ≠ none) : tag cs = .construct := by
  by_cases opens : ['<', '%'] <+: cs
  · obtain ⟨ys, rfl⟩ := opens
    exact if_pos (Option.isSome_iff_ne_none.2 found)
  · exact absurd (constructOf?_eq_none opens) found

/-- A name that is no construct begins an attribute. -/
theorem tag_attribute (plain : constructOf? cs = none) (named : endsName .tag cs = false) :
    tag cs = .attribute := by
  cases cs with
  | nil => cases named
  | cons x xs =>
    have open' : ['>'].isPrefixOf (x :: xs) = false := by
      refine Bool.eq_false_iff.2 fun closed => ?_
      obtain ⟨ys, hy⟩ := List.isPrefixOf_iff_prefix.1 closed
      rw [← hy] at named
      cases named
    have going : ['/', '>'].isPrefixOf (x :: xs) = false := by
      refine Bool.eq_false_iff.2 fun closed => ?_
      obtain ⟨ys, hy⟩ := List.isPrefixOf_iff_prefix.1 closed
      rw [← hy] at named
      cases named
    simp [tag, open', going, plain, named]

/-- Any other character is passed over. -/
theorem tag_stray (left : cs ≠ []) (unclosed : ['>'].isPrefixOf cs = false)
    (going : ['/', '>'].isPrefixOf cs = false) (plain : constructOf? cs = none)
    (unnamed : endsName .tag cs = true) : tag cs = .stray := by
  simp [tag, left, unclosed, going, plain, unnamed]

/-- A `%>` ends a directive. -/
theorem directive_opened (closed : ['%', '>'].isPrefixOf cs = true) : directive cs = .opened := by
  obtain ⟨ys, rfl⟩ := List.isPrefixOf_iff_prefix.1 closed
  rfl

/-- A name begins an attribute of a directive. -/
theorem directive_attribute (named : endsName .directive cs = false) :
    directive cs = .attribute := by
  cases cs with
  | nil => cases named
  | cons x xs =>
    have going : ['%', '>'].isPrefixOf (x :: xs) = false := by
      refine Bool.eq_false_iff.2 fun closed => ?_
      obtain ⟨ys, hy⟩ := List.isPrefixOf_iff_prefix.1 closed
      rw [← hy] at named
      cases named
    simp [directive, going, named]

/-- Any other character of a directive is passed over. -/
theorem directive_stray (left : cs ≠ []) (going : ['%', '>'].isPrefixOf cs = false)
    (unnamed : endsName .directive cs = true) : directive cs = .stray := by
  simp [directive, left, going, unnamed]

end Going

section
variable {s : Source} {e : TagEnd} {c d : Cursor} {ts : List Token}

/-- What a reading of the rest of a tag is, by what the tag goes on with. -/
def BodyGoes (s : Source) (e : TagEnd) (c : Cursor) (ts : List Token) (d : Cursor) :
    Going → Prop
  | .cut => ts = [] ∧ d = c
  | .opened => ts = [.whole .tagClose (s.excerpt c 1)] ∧ d = c.skip 1
  | .selfClosed => ts = [.whole .tagSlashClose (s.excerpt c 2)] ∧ d = c.skip 2
  | .construct => ∃ us vs b, Reads s .construct c us b ∧ Reads s (.body e) b vs d ∧ ts = us ++ vs
  | .attribute =>
    ∃ us vs b, Reads s (.attribute .tag) c us b ∧ Reads s (.body e) b vs d ∧ ts = us ++ vs
  | .stray => Reads s (.body e) (c.skip 1) ts d

/-- What a reading of the rest of a directive is, by what the directive goes on with. -/
def DirectiveGoes (s : Source) (c : Cursor) (ts : List Token) (d : Cursor) : Going → Prop
  | .cut => ts = [] ∧ d = c
  | .opened => ts = [.whole .endDirective (s.excerpt c 2)] ∧ d = c.skip 2
  | .attribute =>
    ∃ us vs b, Reads s (.attribute .directive) c us b ∧ Reads s .directive b vs d ∧ ts = us ++ vs
  | .stray => Reads s .directive (c.skip 1) ts d
  | _ => False

/-- The rest of a tag is read as its text tells. -/
theorem Reads.bodyGoes (h : Reads s (.body e) c ts d) (honest : s.Honest) (on : c.On s) :
    BodyGoes s e c.skipBlanks ts d (.tag c.skipBlanks.rest) := by
  have told := construct?_eq_constructOf? honest on.skipBlanks
  cases h with
  | bodyCut atEnd =>
    rw [Going.tag, if_pos atEnd]
    exact ⟨rfl, rfl⟩
  | bodyOpened closed =>
    rw [Going.tag_opened closed]
    exact ⟨rfl, rfl⟩
  | bodySelfClosed closed =>
    rw [Going.tag_selfClosed closed]
    exact ⟨rfl, rfl⟩
  | bodyConstruct first more =>
    rw [Going.tag_construct (told ▸ first.construct?_ne_none)]
    exact ⟨_, _, _, first, more, rfl⟩
  | bodyAttribute plain first more =>
    rw [Going.tag_attribute (told ▸ plain) first.named]
    exact ⟨_, _, _, first, more, rfl⟩
  | bodyStray left unclosed going plain unnamed more =>
    rw [Going.tag_stray left unclosed going (told ▸ plain) (nameReach_eq_zero.1 unnamed)]
    exact more

/-- The rest of a directive is read as its text tells. -/
theorem Reads.directiveGoes (h : Reads s .directive c ts d) :
    DirectiveGoes s c.skipBlanks ts d (.directive c.skipBlanks.rest) := by
  cases h with
  | directiveCut atEnd =>
    rw [Going.directive, if_pos atEnd]
    exact ⟨rfl, rfl⟩
  | directiveEnd closed =>
    rw [Going.directive_opened closed]
    exact ⟨rfl, rfl⟩
  | directiveAttribute first more =>
    rw [Going.directive_attribute first.named]
    exact ⟨_, _, _, first, more, rfl⟩
  | directiveStray left going unnamed more =>
    rw [Going.directive_stray left going (nameReach_eq_zero.1 unnamed)]
    exact more

end

/-! ### Two readings of one text -/

/-- The token of an excerpt is told by the text. -/
theorem content_whole {s s' : Source} {c c' : Cursor} (same : c'.rest = c.rest) (kind : TokenKind)
    (n : Nat) : (Token.whole kind (s'.excerpt c' n)).content =
      (Token.whole kind (s.excerpt c n)).content := by
  change (kind, String.ofList (c'.rest.take n)) = (kind, String.ofList (c.rest.take n))
  rw [same]

section
variable {s s' : Source} {c c' : Cursor}

/-- Going on leaves the same text. -/
theorem Cursor.skip_congr (same : c'.rest = c.rest) (n : Nat) :
    (c'.skip n).rest = (c.skip n).rest :=
  congrArg (List.drop n) same

/-- Going over blanks leaves the same text. -/
theorem Cursor.skipBlanks_congr (same : c'.rest = c.rest) :
    c'.skipBlanks.rest = c.skipBlanks.rest := by
  rw [rest_skipBlanks, rest_skipBlanks, same]

/-- A name is told by the text. -/
theorem nameReach_congr (same : c'.rest = c.rest) (place : Place) :
    nameReach place c' = nameReach place c :=
  congrArg (reach fun _ => endsName place) same

/-- A value without quotes is told by the text. -/
theorem valueReach_congr (same : c'.rest = c.rest) (place : Place) :
    valueReach place c' = valueReach place c :=
  congrArg (reach fun _ => endsValue place) same

/-- What follows a name is told by the text. -/
theorem afterName_congr (same : c'.rest = c.rest) (place : Place) :
    (afterName place c').rest = (afterName place c).rest := by
  rw [afterName, afterName, nameReach_congr same]
  exact Cursor.skipBlanks_congr (Cursor.skip_congr same _)

/-- What follows an equals sign is told by the text. -/
theorem afterEquals_congr (same : c'.rest = c.rest) :
    (afterEquals c').rest = (afterEquals c).rest :=
  Cursor.skipBlanks_congr (Cursor.skip_congr same 1)

/-- The token of a name is told by the text. -/
theorem content_nameToken (same : c'.rest = c.rest) (place : Place) :
    (s'.nameToken place c').content = (s.nameToken place c).content := by
  rw [Source.nameToken, nameReach_congr same]
  exact content_whole same _ _

/-- The token of a value without quotes is told by the text. -/
theorem content_valueToken (same : c'.rest = c.rest) (place : Place) :
    (s'.valueToken place c').content = (s.valueToken place c).content := by
  rw [Source.valueToken, valueReach_congr same]
  exact content_whole same _ _

/-- The token of a server comment is told by the text. -/
theorem content_commentToken (same : c'.rest = c.rest) (n : Nat) :
    (s'.commentToken c' n).content = (s.commentToken c n).content :=
  content_whole (Cursor.skip_congr same 4) .serverComment n

/-- The token of a code block is told by the text. -/
theorem content_codeToken (same : c'.rest = c.rest) (kind : CodeKind) (n : Nat) :
    (s'.codeToken c' kind n).content = (s.codeToken c kind n).content := by
  have text : (s'.excerpt (c'.skip (Opening.code kind).width) n).value =
      (s.excerpt (c.skip (Opening.code kind).width) n).value := by
    rw [Source.excerpt, Source.excerpt, Cursor.skip_congr same]
  rw [Token.content, Token.content, Source.codeToken, Source.codeToken]
  dsimp only
  rw [Excerpt.value_trim, Excerpt.value_trim, text]

variable (honest : s.Honest) (honest' : s'.Honest) (on : c.On s) (on' : c'.On s')
  (same : c'.rest = c.rest)
include honest honest' on on' same

/-- Constructs are told by the text, if the sources do not mislead the searches. -/
theorem construct?_congr :
    s'.construct? c'.offset c'.rest = s.construct? c.offset c.rest := by
  rw [construct?_eq_constructOf? honest on, construct?_eq_constructOf? honest' on', same]

/-- How far a fragment reaches is told by the text. -/
theorem fragmentReach_congr (q : Char) : fragmentReach s' q c' = fragmentReach s q c := by
  rw [fragmentReach_eq_fragmentOf honest on, fragmentReach_eq_fragmentOf honest' on', same]

/-- The token of a fragment is told by the text. -/
theorem content_fragment (q : Char) (alone : Bool) :
    (s'.fragment q alone c').map Token.content = (s.fragment q alone c).map Token.content := by
  rw [Source.fragment, Source.fragment, fragmentReach_congr honest honest' on on' same]
  split
  · rfl
  · exact congrArg (fun x => [x]) (content_whole same _ _)

end

/-- **Two readings of one text have the same tokens**, wherever the text stands, and leave the same
text. -/
theorem Reads.alike {s s' : Source} (honest : s.Honest) (honest' : s'.Honest) {part part' : Part}
    {c c' d d' : Cursor} {ts ts' : List Token} (h : Reads s part c ts d)
    (h' : Reads s' part' c' ts' d') (like : part.Like part') (on : c.On s) (on' : c'.On s')
    (same : c'.rest = c.rest) :
    ts'.map Token.content = ts.map Token.content ∧ d'.rest = d.rest := by
  induction h generalizing part' c' d' ts' with
  | @comment c n found =>
    obtain rfl := like
    have both := construct?_congr honest honest' on on' same
    cases h' with
    | @comment _ n' found' =>
      obtain rfl : n' = n := by simpa [found, found'] using both
      exact ⟨congrArg (fun x => [x]) (content_commentToken same n'), Cursor.skip_congr same _⟩
    | code found' | directive found' => simp [found, found'] at both
  | @code c kind n found =>
    obtain rfl := like
    have both := construct?_congr honest honest' on on' same
    cases h' with
    | @code _ kind' n' found' =>
      obtain ⟨rfl, rfl⟩ : kind' = kind ∧ n' = n := by simpa [found, found'] using both
      exact ⟨congrArg (fun x => [x]) (content_codeToken same kind' n'), Cursor.skip_congr same _⟩
    | comment found' | directive found' => simp [found, found'] at both
  | @directive c n ts d found inner ih =>
    obtain rfl := like
    have both := construct?_congr honest honest' on on' same
    cases h' with
    | directive _ inner' =>
      obtain ⟨tokens, rest⟩ := ih inner' rfl (on.skip 3) (on'.skip 3) (Cursor.skip_congr same 3)
      exact ⟨congrArg₂ List.cons (content_whole same _ 3) tokens, rest⟩
    | comment found' | code found' => simp [found, found'] at both
  | directiveCut atEnd =>
    obtain rfl := like
    have goes := h'.directiveGoes
    rw [Cursor.skipBlanks_congr same, Going.directive, if_pos atEnd] at goes
    obtain ⟨rfl, rfl⟩ := goes
    exact ⟨rfl, Cursor.skipBlanks_congr same⟩
  | directiveEnd closed =>
    obtain rfl := like
    have blanks := Cursor.skipBlanks_congr same
    have goes := h'.directiveGoes
    rw [blanks, Going.directive_opened closed] at goes
    obtain ⟨rfl, rfl⟩ := goes
    exact ⟨congrArg (fun x => [x]) (content_whole blanks _ 2), Cursor.skip_congr blanks 2⟩
  | directiveAttribute first more ih₁ ih₂ =>
    obtain rfl := like
    have goes := h'.directiveGoes
    rw [Cursor.skipBlanks_congr same, Going.directive_attribute first.named] at goes
    obtain ⟨us', vs', b', first', more', rfl⟩ := goes
    obtain ⟨tokens₁, rest₁⟩ :=
      ih₁ first' rfl on.skipBlanks on'.skipBlanks (Cursor.skipBlanks_congr same)
    obtain ⟨tokens₂, rest₂⟩ :=
      ih₂ more' rfl (first.on on.skipBlanks) (first'.on on'.skipBlanks) rest₁
    exact ⟨by rw [List.map_append, List.map_append, tokens₁, tokens₂], rest₂⟩
  | directiveStray left going unnamed more ih =>
    obtain rfl := like
    have blanks := Cursor.skipBlanks_congr same
    have goes := h'.directiveGoes
    rw [blanks, Going.directive_stray left going (nameReach_eq_zero.1 unnamed)] at goes
    exact ih goes rfl (on.skipBlanks.skip 1) (on'.skipBlanks.skip 1) (Cursor.skip_congr blanks 1)
  | @bare place c named valueless =>
    obtain rfl := like
    have behind := afterName_congr same place
    cases h' with
    | bare =>
      exact ⟨congrArg (fun x => [x]) (content_nameToken same place), behind⟩
    | unquoted _ valued | quoted _ valued => exact absurd (behind ▸ valued) valueless
  | @unquoted place c named valued plain =>
    obtain rfl := like
    have behind := afterName_congr same place
    have value := afterEquals_congr behind
    cases h' with
    | bare _ valueless => exact absurd (behind.symm ▸ valued) valueless
    | unquoted =>
      refine ⟨congrArg₂ (fun x y => [x, y]) (content_nameToken same place)
        (content_valueToken value place), ?_⟩
      rw [valueReach_congr value]
      exact Cursor.skip_congr value _
    | quoted _ _ opened => simp [← value, opened] at plain
  | @quoted place c q ts d named valued opened inner ih =>
    obtain rfl := like
    have behind := afterName_congr same place
    have value := afterEquals_congr behind
    cases h' with
    | bare _ valueless => exact absurd (behind.symm ▸ valued) valueless
    | unquoted _ _ plain => simp [value, opened] at plain
    | @quoted _ _ q' _ _ _ _ opened' inner' =>
      obtain rfl : q' = q := by simpa [value, opened] using opened'.symm
      obtain ⟨tokens, rest⟩ := ih inner' rfl (on.afterName.afterEquals.skip 1)
        (on'.afterName.afterEquals.skip 1) (Cursor.skip_congr value 1)
      exact ⟨congrArg₂ List.cons (content_nameToken same place) tokens, rest⟩
  | @quotedConstruct q alone c ts b us d inner more ih₁ ih₂ =>
    obtain rfl := like
    have reach := fragmentReach_congr honest honest' on on' same q
    have behind := Cursor.skip_congr same (fragmentReach s q c)
    have fragment := content_fragment honest honest' on on' same q false
    cases h' with
    | quotedConstruct inner' more' =>
      rw [reach] at inner'
      obtain ⟨tokens₁, rest₁⟩ := ih₁ inner' rfl (on.skip _) (on'.skip _) behind
      obtain ⟨tokens₂, rest₂⟩ := ih₂ more' rfl (inner.on (on.skip _)) (inner'.on (on'.skip _)) rest₁
      exact ⟨by simp only [List.map_append, fragment, tokens₁, tokens₂], rest₂⟩
    | quotedEnd plain' =>
      rw [reach, construct?_congr honest honest' (on.skip _) (on'.skip _) behind] at plain'
      exact absurd plain' inner.construct?_ne_none
  | @quotedEnd q alone c plain =>
    obtain rfl := like
    have reach := fragmentReach_congr honest honest' on on' same q
    have behind := Cursor.skip_congr same (fragmentReach s q c)
    cases h' with
    | quotedConstruct inner' more' =>
      rw [reach] at inner'
      have found := inner'.construct?_ne_none
      rw [construct?_congr honest honest' (on.skip _) (on'.skip _) behind] at found
      exact absurd plain found
    | quotedEnd =>
      refine ⟨content_fragment honest honest' on on' same q alone, ?_⟩
      rw [reach]
      exact Cursor.skip_congr behind 1
  | bodyCut atEnd =>
    obtain ⟨e', rfl⟩ := like.exists_body
    have goes := h'.bodyGoes honest' on'
    rw [Cursor.skipBlanks_congr same, Going.tag, if_pos atEnd] at goes
    obtain ⟨rfl, rfl⟩ := goes
    exact ⟨rfl, Cursor.skipBlanks_congr same⟩
  | bodyOpened closed =>
    obtain ⟨e', rfl⟩ := like.exists_body
    have blanks := Cursor.skipBlanks_congr same
    have goes := h'.bodyGoes honest' on'
    rw [blanks, Going.tag_opened closed] at goes
    obtain ⟨rfl, rfl⟩ := goes
    exact ⟨congrArg (fun x => [x]) (content_whole blanks _ 1), Cursor.skip_congr blanks 1⟩
  | bodySelfClosed closed =>
    obtain ⟨e', rfl⟩ := like.exists_body
    have blanks := Cursor.skipBlanks_congr same
    have goes := h'.bodyGoes honest' on'
    rw [blanks, Going.tag_selfClosed closed] at goes
    obtain ⟨rfl, rfl⟩ := goes
    exact ⟨congrArg (fun x => [x]) (content_whole blanks _ 2), Cursor.skip_congr blanks 2⟩
  | @bodyConstruct e c us b vs d first more ih₁ ih₂ =>
    obtain ⟨e', rfl⟩ := like.exists_body
    have blanks := Cursor.skipBlanks_congr same
    have found := first.construct?_ne_none
    rw [construct?_eq_constructOf? honest on.skipBlanks] at found
    have goes := h'.bodyGoes honest' on'
    rw [blanks, Going.tag_construct found] at goes
    obtain ⟨us', vs', b', first', more', rfl⟩ := goes
    obtain ⟨tokens₁, rest₁⟩ := ih₁ first' rfl on.skipBlanks on'.skipBlanks blanks
    obtain ⟨tokens₂, rest₂⟩ :=
      ih₂ more' trivial (first.on on.skipBlanks) (first'.on on'.skipBlanks) rest₁
    exact ⟨by rw [List.map_append, List.map_append, tokens₁, tokens₂], rest₂⟩
  | @bodyAttribute e c us b vs d plain first more ih₁ ih₂ =>
    obtain ⟨e', rfl⟩ := like.exists_body
    have blanks := Cursor.skipBlanks_congr same
    rw [construct?_eq_constructOf? honest on.skipBlanks] at plain
    have goes := h'.bodyGoes honest' on'
    rw [blanks, Going.tag_attribute plain first.named] at goes
    obtain ⟨us', vs', b', first', more', rfl⟩ := goes
    obtain ⟨tokens₁, rest₁⟩ := ih₁ first' rfl on.skipBlanks on'.skipBlanks blanks
    obtain ⟨tokens₂, rest₂⟩ :=
      ih₂ more' trivial (first.on on.skipBlanks) (first'.on on'.skipBlanks) rest₁
    exact ⟨by rw [List.map_append, List.map_append, tokens₁, tokens₂], rest₂⟩
  | @bodyStray e c ts d left unclosed going plain unnamed more ih =>
    obtain ⟨e', rfl⟩ := like.exists_body
    have blanks := Cursor.skipBlanks_congr same
    rw [construct?_eq_constructOf? honest on.skipBlanks] at plain
    have goes := h'.bodyGoes honest' on'
    rw [blanks, Going.tag_stray left unclosed going plain (nameReach_eq_zero.1 unnamed)] at goes
    exact ih goes trivial (on.skipBlanks.skip 1) (on'.skipBlanks.skip 1)
      (Cursor.skip_congr blanks 1)
  | closingEnd closed =>
    obtain rfl := like
    have blanks := Cursor.skipBlanks_congr same
    cases h' with
    | closingEnd =>
      exact ⟨congrArg (fun x => [x]) (content_whole blanks _ 1), Cursor.skip_congr blanks 1⟩
    | closingBare unclosed =>
      rw [Cursor.sees, blanks] at unclosed
      exact absurd closed (Bool.eq_false_iff.1 unclosed)
  | closingBare unclosed =>
    obtain rfl := like
    have blanks := Cursor.skipBlanks_congr same
    cases h' with
    | closingEnd closed =>
      rw [Cursor.sees, blanks] at closed
      exact absurd closed (Bool.eq_false_iff.1 unclosed)
    | closingBare => exact ⟨rfl, blanks⟩

end ServerMarkup
