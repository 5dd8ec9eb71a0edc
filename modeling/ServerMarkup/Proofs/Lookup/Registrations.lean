/-
# Registrations

What is registered for a prefix or a tag depends on the calls that have registered something, in
their order (`Registry.registering`).  Each prefix has the namespaces that have been added for it,
each of them once (`namespacesOf_registering`).  A tag has the first type it has been given
(`control?_registering`), but a tag is known by what is written for it, prefix, colon and name in
one.  So two tags are told apart only as far as this can be read in one way: a prefix or a name with
a colon in it runs into another pair, and the prefix of such a tag is not known as used
(`registration_confused`).

`registrations_apart` says that this is all: among prefixes without a colon, and only among these,
registrations do not interfere.
-/

import Mathlib.Data.List.Induction
import Mathlib.Data.Set.Basic
import ServerMarkup.Proofs.Source.Cuts
import ServerMarkup.Proofs.Source.LetterCase
import ServerMarkup.Registry

namespace ServerMarkup

/-- A call that registers something. -/
inductive Registration where
  | space (tagPrefix space : String)
  | control (tagPrefix name : String) (type : TypeRef)
  | defaults (o : Options)
deriving DecidableEq, Repr

namespace Registration

/-- The prefix that is used. -/
def tagPrefix : Registration → String
  | space tagPrefix _ => tagPrefix
  | control tagPrefix _ _ => tagPrefix
  | defaults o => o.webControlsPrefix

/-- The namespace that is added for the prefix. -/
def spaceFor? (wanted : String) : Registration → Option String
  | space tagPrefix added => if sameName tagPrefix wanted then some added else none
  | control .. => none
  | defaults o => if sameName o.webControlsPrefix wanted then some o.webControlsNamespace else none

/-- The type that is meant for the tag with the prefix and the name. -/
def typeFor? (wantedPrefix wantedName : String) : Registration → Option TypeRef
  | control tagPrefix name type =>
    if sameName tagPrefix wantedPrefix && sameName name wantedName then some type else none
  | _ => none

/-- The type that is meant for the tag as it is written. -/
def typeOfTag? (tag : String) : Registration → Option TypeRef
  | control tagPrefix name type =>
    if sameName (tagPrefix ++ ":" ++ name) tag then some type else none
  | _ => none

end Registration

namespace Registry

/-- The registry behind a call; what is refused changes nothing. -/
def register (r : Registry) : Registration → Registry
  | .space tagPrefix space => r.addNamespace tagPrefix space
  | .control tagPrefix name type => (r.addControl tagPrefix name type).toOption.getD r
  | .defaults o => r.addDefaults o

/-- The registry behind the calls. -/
def registering (calls : List Registration) : Registry :=
  calls.foldl register empty

/-- The namespaces that the calls add for the prefix, in order, without those that are there already
in some letter case. -/
def spacesFor (calls : List Registration) (tagPrefix : String) : List String :=
  (calls.filterMap (·.spaceFor? tagPrefix)).eraseDupsBy sameName

/-- The type that the first call for the tag with the prefix and the name means for it. -/
def firstType (calls : List Registration) (tagPrefix name : String) : Option TypeRef :=
  calls.findSome? (·.typeFor? tagPrefix name)

/-- Behind the calls the registry keeps tags and prefixes apart: with one of the prefixes each name
has the type that it has been given first, another type is refused for it and nothing else is, what
is refused changes nothing, and just those prefixes are known that have been used. -/
structure KeepsApart (calls : List Registration) (prefixes : Set String) : Prop where
  control : ∀ tagPrefix ∈ prefixes, ∀ name,
    (registering calls).control? tagPrefix name = firstType calls tagPrefix name
  refused : ∀ tagPrefix ∈ prefixes, ∀ name type other,
    (registering calls).addControl tagPrefix name type = .error other ↔
      firstType calls tagPrefix name = some other ∧ other ≠ type
  unchanged : ∀ tagPrefix ∈ prefixes, ∀ name type other,
    firstType calls tagPrefix name = some other → other ≠ type →
      registering (calls ++ [.control tagPrefix name type]) = registering calls
  used : ∀ tagPrefix, (registering calls).hasPrefix tagPrefix = true ↔
    ∃ call ∈ calls, sameName call.tagPrefix tagPrefix = true

theorem registering_append (calls : List Registration) (call : Registration) :
    registering (calls ++ [call]) = (registering calls).register call := by
  rw [registering, List.foldl_append]
  rfl

/-! ### Keys of tags -/

theorem lowered_append (a b : String) : lowered (a ++ b) = lowered a ++ lowered b := by
  simp [lowered, String.ofList_append]

/-- The key of a tag is what is written for it, without letter case. -/
theorem tagKey_eq (tagPrefix name : String) :
    tagKey tagPrefix name = lowered (tagPrefix ++ ":" ++ name) := by
  rw [lowered_append, lowered_append]
  rfl

theorem toList_tagKey (tagPrefix name : String) :
    (tagKey tagPrefix name).toList = small tagPrefix ++ ':' :: small name := by
  simp [tagKey, lowered, small]

theorem colon_mem_small {s : String} : ':' ∈ small s ↔ ':' ∈ s.toList := by
  rw [small, List.mem_map]
  constructor
  · rintro ⟨c, hc, colon⟩
    rwa [← (toLower_eq_iff rfl).1 colon]
  · exact fun h => ⟨':', h, rfl⟩

/-- Keys of prefixes without a colon tell prefixes and names apart. -/
theorem tagKey_eq_iff {p p' n n' : String} (h : ':' ∉ p.toList) (h' : ':' ∉ p'.toList) :
    tagKey p n = tagKey p' n' ↔ sameName p p' = true ∧ sameName n n' = true := by
  rw [sameName_iff_small, sameName_iff_small, ← String.toList_inj, toList_tagKey, toList_tagKey]
  constructor
  · intro same
    have cut := congrArg (cutFirst ':') same
    rw [cutFirst_append (mt colon_mem_small.1 h), cutFirst_append (mt colon_mem_small.1 h')] at cut
    exact Prod.mk.inj (Option.some.inj cut)
  · rintro ⟨same, same'⟩
    rw [same, same']

theorem colon_notMem_prefixOfKey (key : String) : ':' ∉ (prefixOfKey key).toList := by
  rw [prefixOfKey, String.toList_ofList]
  intro mem
  have other := List.mem_takeWhile_imp mem
  simp at other

/-- The prefix in a key is the prefix of the tag, if it has no colon. -/
theorem prefixOfKey_tagKey {tagPrefix : String} (h : ':' ∉ tagPrefix.toList) (name : String) :
    prefixOfKey (tagKey tagPrefix name) = lowered tagPrefix := by
  have other : ∀ c ∈ small tagPrefix, (c != ':') = true := fun c hc =>
    bne_iff_ne.2 fun same => mt colon_mem_small.1 h (same ▸ hc)
  rw [prefixOfKey, toList_tagKey, List.takeWhile_append_of_pos other]
  simp [lowered, small]

/-! ### One call -/

/-- A change of the values does not matter for what stands under a key. -/
theorem keyed_comp {α : Type} {f : String × α → String × α} (keys : ∀ e, (f e).1 = e.1)
    (key : String) : (fun e => e.1 == key) ∘ f = fun e : String × α => e.1 == key :=
  funext fun e => by rw [Function.comp_apply, keys]

/-- A tag with a type keeps it. -/
theorem register_of_known {r : Registry} {tagPrefix name : String} {existing : TypeRef}
    (known : r.control? tagPrefix name = some existing) (type : TypeRef) :
    r.register (.control tagPrefix name type) = r := by
  rw [register, addControl, known]
  dsimp only
  split <;> rfl

/-- A tag without a type gets one. -/
theorem register_of_new {r : Registry} {tagPrefix name : String}
    (new : r.control? tagPrefix name = none) (type : TypeRef) :
    r.register (.control tagPrefix name type) =
      { r with controls := r.controls ++ [(tagKey tagPrefix name, type)] } := by
  rw [register, addControl, new]
  rfl

section
variable (r : Registry)

theorem control?_addNamespace (tagPrefix space wanted name : String) :
    (r.addNamespace tagPrefix space).control? wanted name = r.control? wanted name := by
  unfold addNamespace
  dsimp only
  split <;> rfl

/-- A tag keeps its type, and gets one if it has none yet. -/
theorem control?_register (call : Registration) (tagPrefix name : String) :
    (r.register call).control? tagPrefix name =
      (r.control? tagPrefix name).or (call.typeOfTag? (tagPrefix ++ ":" ++ name)) := by
  cases call with
  | space p s => rw [register, control?_addNamespace]; exact Option.or_none.symm
  | defaults o => rw [register, addDefaults, control?_addNamespace]; exact Option.or_none.symm
  | control p n t =>
    have keyed : sameName (p ++ ":" ++ n) (tagPrefix ++ ":" ++ name) =
        (tagKey p n == tagKey tagPrefix name) := by rw [tagKey_eq, tagKey_eq]; rfl
    rw [Registration.typeOfTag?, keyed]
    cases known : r.control? p n with
    | some existing =>
      rw [register_of_known known]
      by_cases same : tagKey p n = tagKey tagPrefix name
      · have here : r.control? tagPrefix name = some existing := by
          rw [control?, ← same]
          exact known
        rw [here]
        rfl
      · simp [same]
    | none =>
      rw [register_of_new known, control?, List.find?_append]
      by_cases same : tagKey p n = tagKey tagPrefix name
      · cases h : r.controls.find? (·.1 == tagKey tagPrefix name) <;> simp [control?, h, same]
      · cases h : r.controls.find? (·.1 == tagKey tagPrefix name) <;> simp [control?, h, same]

theorem namespacesOf_addNamespace (tagPrefix space wanted : String) :
    (r.addNamespace tagPrefix space).namespacesOf wanted =
      if sameName tagPrefix wanted then withNamespace (r.namespacesOf wanted) space
      else r.namespacesOf wanted := by
  have other (h : ¬ lowered tagPrefix = lowered wanted) : sameName tagPrefix wanted = false :=
    beq_eq_false_iff_ne.2 h
  unfold addNamespace
  dsimp only
  split
  · next known =>
    rw [namespacesOf, List.find?_map, keyed_comp fun e => by split <;> rfl]
    cases found : r.namespaces.find? (·.1 == lowered wanted) with
    | none =>
      -- The prefix that is known is another one.
      have absent : ¬ lowered tagPrefix = lowered wanted := fun same => by
        obtain ⟨e, mem, key⟩ := List.any_eq_true.1 known
        exact List.find?_eq_none.1 found e mem (same ▸ key)
      rw [other absent, namespacesOf, found]
      rfl
    | some e =>
      have key : e.1 = lowered wanted := by simpa using List.find?_some found
      by_cases same : lowered tagPrefix = lowered wanted
      · simp [namespacesOf, found, key, same, sameName]
      · simp [namespacesOf, found, key, other same, Ne.symm same]
  · next new =>
    rw [namespacesOf, List.find?_append]
    by_cases same : lowered tagPrefix = lowered wanted
    · have absent : r.namespaces.find? (·.1 == lowered wanted) = none :=
        List.find?_eq_none.2 fun e mem key => new (List.any_eq_true.2 ⟨e, mem, same ▸ key⟩)
      simp [namespacesOf, absent, same, sameName, withNamespace, nameIn]
    · simp [namespacesOf, same, other same]

/-- A call adds a namespace to a prefix if it is meant for it. -/
theorem namespacesOf_register (call : Registration) (tagPrefix : String) :
    (r.register call).namespacesOf tagPrefix =
      (call.spaceFor? tagPrefix).elim (r.namespacesOf tagPrefix)
        (withNamespace (r.namespacesOf tagPrefix)) := by
  cases call with
  | space p space =>
    rw [register, namespacesOf_addNamespace, Registration.spaceFor?]
    split <;> rfl
  | defaults o =>
    rw [register, addDefaults, namespacesOf_addNamespace, Registration.spaceFor?]
    split <;> rfl
  | control p name type =>
    cases known : r.control? p name with
    | some existing => rw [register_of_known known]; rfl
    | none => rw [register_of_new known]; rfl

theorem hasPrefix_addNamespace (tagPrefix space wanted : String) :
    (r.addNamespace tagPrefix space).hasPrefix wanted =
      (r.hasPrefix wanted || sameName tagPrefix wanted) := by
  unfold addNamespace
  dsimp only
  split
  · next known =>
    rw [hasPrefix, List.any_map, keyed_comp fun e => by split <;> rfl, ← hasPrefix]
    by_cases same : lowered tagPrefix = lowered wanted
    · rw [hasPrefix, ← same, known]
      rfl
    · rw [sameName, beq_eq_false_iff_ne.2 same, Bool.or_false]
  · rw [hasPrefix, hasPrefix, sameName, List.any_append, List.any_cons, List.any_nil,
      Bool.or_false, Bool.or_right_comm]

/-- A tag makes the prefix in its key known, also when it is refused. -/
theorem hasPrefix_register_control (tagPrefix name : String) (type : TypeRef) (wanted : String) :
    (r.register (.control tagPrefix name type)).hasPrefix wanted =
      (r.hasPrefix wanted || prefixOfKey (tagKey tagPrefix name) == lowered wanted) := by
  cases known : r.control? tagPrefix name with
  | some existing =>
    obtain ⟨e, found, -⟩ := Option.map_eq_some_iff.1 known
    have key : e.1 = tagKey tagPrefix name := by simpa using List.find?_some found
    rw [register_of_known known]
    cases same : prefixOfKey (tagKey tagPrefix name) == lowered wanted with
    | false => rw [Bool.or_false]
    | true =>
      have here : r.controls.any (prefixOfKey ·.1 == lowered wanted) = true :=
        List.any_eq_true.2 ⟨e, List.mem_of_find?_eq_some found, by rw [key, same]⟩
      rw [hasPrefix, here, Bool.or_true, Bool.or_true]
  | none =>
    rw [register_of_new known, hasPrefix, hasPrefix, List.any_append, List.any_cons, List.any_nil,
      Bool.or_false, Bool.or_assoc]

end

/-! ### All calls -/

section
variable (calls : List Registration)

/-- **A tag has the first type it has been given**, if tags are the same that are written alike. -/
theorem control?_registering (tagPrefix name : String) :
    (registering calls).control? tagPrefix name =
      calls.findSome? (·.typeOfTag? (tagPrefix ++ ":" ++ name)) := by
  induction calls using List.reverseRecOn with
  | nil => rfl
  | append_singleton calls call ih =>
    rw [registering_append, control?_register, ih, List.findSome?_append, List.findSome?_singleton]

theorem withNamespace_cons {first space : String} (other : sameName first space = false)
    (spaces : List String) :
    withNamespace (first :: spaces) space = first :: withNamespace spaces space := by
  unfold withNamespace nameIn
  rw [List.any_cons, other, Bool.false_or]
  by_cases known : (spaces.any fun s => sameName s space) = true
  · rw [if_pos known, if_pos known]
  · rw [if_neg known, if_neg known]
    rfl

/-- Of names the first one is kept that is the same as others, also when one comes behind them. -/
theorem eraseDupsBy_append_singleton (spaces : List String) (space : String) :
    (spaces ++ [space]).eraseDupsBy sameName =
      withNamespace (spaces.eraseDupsBy sameName) space := by
  induction h : spaces.length using Nat.strong_induction_on generalizing spaces with
  | _ n ih =>
    cases spaces with
    | nil => rfl
    | cons first spaces =>
      have fewer := List.length_filter_le (fun s => decide (sameName s first = false)) spaces
      rw [List.cons_append, List.eraseDupsBy_cons, List.eraseDupsBy_cons, List.filter_append]
      cases same : sameName space first with
      | true =>
        have here : sameName first space = true := (sameName_comm first space).trans same
        simp [same, here, withNamespace, nameIn]
      | false =>
        have other : sameName first space = false := (sameName_comm first space).trans same
        rw [List.length_cons] at h
        have rest := ih _ (by omega : _ < n) (spaces.filter fun s => sameName s first = false) rfl
        have alone : [space].filter (fun s => sameName s first = false) = [space] := by simp [same]
        rw [alone, rest, withNamespace_cons other]

theorem spacesFor_append (call : Registration) (tagPrefix : String) :
    spacesFor (calls ++ [call]) tagPrefix =
      (call.spaceFor? tagPrefix).elim (spacesFor calls tagPrefix)
        (withNamespace (spacesFor calls tagPrefix)) := by
  rw [spacesFor, List.filterMap_append]
  cases added : call.spaceFor? tagPrefix with
  | none => simp [added, spacesFor]
  | some space =>
    have last : [call].filterMap (·.spaceFor? tagPrefix) = [space] := by simp [added]
    rw [last, eraseDupsBy_append_singleton]
    rfl

/-- **A prefix has the namespaces that have been added for it**, each once. -/
theorem namespacesOf_registering (tagPrefix : String) :
    (registering calls).namespacesOf tagPrefix = spacesFor calls tagPrefix := by
  induction calls using List.reverseRecOn with
  | nil => rfl
  | append_singleton calls call ih =>
    rw [registering_append, namespacesOf_register, ih, spacesFor_append]

/-- The prefix that is known by a call: for a tag the one in its key. -/
def knownPrefix : Registration → String
  | .control tagPrefix name _ => prefixOfKey (tagKey tagPrefix name)
  | call => lowered call.tagPrefix

/-- **A prefix is known if a call makes it known.** -/
theorem hasPrefix_registering (tagPrefix : String) :
    (registering calls).hasPrefix tagPrefix =
      calls.any fun call => knownPrefix call == lowered tagPrefix := by
  induction calls using List.reverseRecOn with
  | nil => rfl
  | append_singleton calls call ih =>
    rw [registering_append, List.any_append, List.any_cons, List.any_nil, Bool.or_false, ← ih]
    cases call with
    | space p space => exact hasPrefix_addNamespace _ p space tagPrefix
    | defaults o => exact hasPrefix_addNamespace _ _ _ tagPrefix
    | control p name type => exact hasPrefix_register_control _ p name type tagPrefix

end

/-! ### Prefixes without a colon -/

theorem addControl_eq_error_iff {r : Registry} {tagPrefix name : String} {type other : TypeRef} :
    r.addControl tagPrefix name type = .error other ↔
      r.control? tagPrefix name = some other ∧ other ≠ type := by
  unfold addControl
  cases r.control? tagPrefix name with
  | none => simp
  | some existing =>
    by_cases same : existing = type
    · simp only [if_pos same, reduceCtorEq, Option.some.injEq, false_iff]
      rintro ⟨rfl, other⟩
      exact other same
    · simp only [if_neg same, Except.error.injEq, Option.some.injEq]
      exact ⟨fun h => ⟨h, h ▸ same⟩, And.left⟩

/-- Pairs are told apart by what is written for them. -/
theorem typeOfTag?_eq {call : Registration} {tagPrefix : String} (h : ':' ∉ tagPrefix.toList)
    (free : ∀ p name type, call = .control p name type → ':' ∉ p.toList) (name : String) :
    call.typeOfTag? (tagPrefix ++ ":" ++ name) = call.typeFor? tagPrefix name := by
  cases call with
  | space | defaults => rfl
  | control p n t =>
    have same : sameName (p ++ ":" ++ n) (tagPrefix ++ ":" ++ name) =
        (sameName p tagPrefix && sameName n name) := by
      rw [Bool.eq_iff_iff, Bool.and_eq_true, ← tagKey_eq_iff (free p n t rfl) h, tagKey_eq,
        tagKey_eq, sameName_iff]
    rw [Registration.typeOfTag?, Registration.typeFor?, same]

theorem findSome?_congr {α β : Type} {f g : α → Option β} {l : List α}
    (same : ∀ a ∈ l, f a = g a) : l.findSome? f = l.findSome? g := by
  induction l with
  | nil => rfl
  | cons a l ih =>
    rw [List.findSome?_cons, List.findSome?_cons, same a List.mem_cons_self,
      ih fun b mem => same b (List.mem_cons_of_mem a mem)]

/-- With prefixes without a colon, registrations are kept apart. -/
theorem keepsApart {calls : List Registration} {prefixes : Set String}
    (plain : ∀ tagPrefix ∈ prefixes, ':' ∉ tagPrefix.toList)
    (among : ∀ tagPrefix name type,
      Registration.control tagPrefix name type ∈ calls → tagPrefix ∈ prefixes) :
    KeepsApart calls prefixes := by
  have free : ∀ call ∈ calls, ∀ p name type, call = .control p name type → ':' ∉ p.toList := by
    rintro _ mem p name type rfl
    exact plain p (among p name type mem)
  have control : ∀ tagPrefix ∈ prefixes, ∀ name,
      (registering calls).control? tagPrefix name = firstType calls tagPrefix name := by
    intro tagPrefix among name
    rw [control?_registering, firstType]
    exact findSome?_congr fun call mem => typeOfTag?_eq (plain tagPrefix among) (free call mem) name
  refine ⟨control, fun tagPrefix among name type other => ?_,
    fun tagPrefix among name type other known _ => ?_, fun tagPrefix => ?_⟩
  · rw [addControl_eq_error_iff, control tagPrefix among]
  · rw [registering_append, register_of_known ((control tagPrefix among name).trans known)]
  · rw [hasPrefix_registering, List.any_eq_true]
    refine exists_congr fun call => and_congr_right fun mem => ?_
    have known : knownPrefix call = lowered call.tagPrefix := by
      cases call with
      | space | defaults => rfl
      | control p name type => exact prefixOfKey_tagKey (free _ mem p name type rfl) name
    rw [known]
    rfl

/-- **Registrations do not interfere, but for colons.**  Whatever is called: a tag has the first
type that has been given to a tag which is written alike, and a prefix has the namespaces that have
been added for it.  Let tags be registered with some prefixes alone.  Then tags and prefixes are
kept apart behind all calls exactly if none of these prefixes has a colon. -/
theorem registrations_apart (prefixes : Set String) :
    (∀ calls tagPrefix name, (registering calls).control? tagPrefix name =
      calls.findSome? (·.typeOfTag? (tagPrefix ++ ":" ++ name))) ∧
    (∀ calls tagPrefix,
      (registering calls).namespacesOf tagPrefix = spacesFor calls tagPrefix) ∧
    ((∀ calls : List Registration, (∀ tagPrefix name type,
        Registration.control tagPrefix name type ∈ calls → tagPrefix ∈ prefixes) →
          KeepsApart calls prefixes) ↔
      ∀ tagPrefix ∈ prefixes, ':' ∉ tagPrefix.toList) := by
  refine ⟨control?_registering, namespacesOf_registering, fun apart tagPrefix among colon => ?_,
    fun plain calls among => keepsApart plain among⟩
  -- The prefix of a tag is not known as used if it has a colon.
  have kept := apart [.control tagPrefix "" (.plain "" "")] fun p name type mem => by
    obtain ⟨rfl, -, -⟩ := Registration.control.inj (List.mem_singleton.1 mem)
    exact among
  have used := (kept.used tagPrefix).2 ⟨_, List.mem_cons_self, sameName_refl tagPrefix⟩
  rw [hasPrefix_registering, List.any_cons, List.any_nil, Bool.or_false, beq_iff_eq] at used
  have none := colon_notMem_prefixOfKey (tagKey tagPrefix "")
  rw [knownPrefix] at used
  rw [used, lowered, String.toList_ofList] at none
  exact none (colon_mem_small.2 colon)

/-- Calls with prefixes and names in different letter case, one of them for a type that is refused.
-/
def layeredCalls : List Registration :=
  [.control "uc" "Header" (.plain "Site" "Header"), .space "my" "Site.Controls",
    .control "UC" "header" (.plain "Site" "Other"), .space "MY" "site.controls",
    .control "my" "uc:Header" (.plain "Site" "Other")]

/-- Among prefixes without a colon nothing interferes. -/
theorem registrations_apart_layered :
    KeepsApart layeredCalls {tagPrefix | ':' ∉ tagPrefix.toList} ∧
      (registering layeredCalls).control? "Uc" "HEADER" = some (.plain "Site" "Header") := by
  have apart := (registrations_apart {tagPrefix | ':' ∉ tagPrefix.toList}).2.2.2
    fun _ plain => plain
  refine ⟨apart layeredCalls fun tagPrefix name type mem => ?_, by decide +kernel⟩
  simp only [layeredCalls, List.mem_cons, Registration.control.injEq, reduceCtorEq,
    List.not_mem_nil, or_false, false_or] at mem
  rcases mem with ⟨rfl, -⟩ | ⟨rfl, -⟩ | ⟨rfl, -⟩ <;> simp

/-- Two pairs that are written alike are one, and the prefix of a tag that has a colon is not known.
-/
theorem registration_confused :
    (registering [.control "a:b" "c" (.plain "Site" "Box")]).control? "a" "b:c" =
        some (.plain "Site" "Box") ∧
      firstType [.control "a:b" "c" (.plain "Site" "Box")] "a" "b:c" = none ∧
      (registering [.control "a:b" "c" (.plain "Site" "Box")]).hasPrefix "a:b" = false ∧
      (registering [.control "a:b" "c" (.plain "Site" "Box")]).hasPrefix "a" = true := by
  decide +kernel

end Registry

end ServerMarkup
