/-
# The paths that references lead to

A reference leads to a path whose segments are names (`names_resolveReference`): none is empty or
made of dots alone, and each is a segment of the reference or of the path it stands in.  Stored
files are looked up under the normal path of that, which can be another one, since blanks at the
ends are cut off and a `~` in front stands for the root.  Only the first segment and the last two
can get lost by that, so a path is not much longer than its normal path (`length_le_normalPath`).
-/

import ServerMarkup.Proofs.Include.References

namespace ServerMarkup

/-! ### Pieces -/

section
variable {sep : Char} {ps : List (List Char)} {cs s : List Char}

theorem joined_cons (some : ps ≠ []) (p : List Char) :
    joined sep (p :: ps) = p ++ sep :: joined sep ps := by
  cases ps with
  | nil => exact absurd rfl some
  | cons q ps => rfl

theorem pieces_append_sep (a b : List Char) :
    pieces sep (a ++ sep :: b) = pieces sep a ++ pieces sep b := by
  induction a with
  | nil => simp [pieces]
  | cons c a ih =>
    rw [List.cons_append, pieces, pieces, ih]
    split
    · rfl
    · cases ha : pieces sep a with
      | nil => exact absurd ha (pieces_ne_nil sep a)
      | cons p ps => rfl

theorem pieces_of_notMem (h : sep ∉ cs) : pieces sep cs = [cs] := by
  induction cs with
  | nil => rfl
  | cons c cs ih =>
    rw [List.mem_cons, not_or] at h
    rw [pieces, if_neg (Ne.symm h.1), ih h.2]

/-- Pieces without the separator are what they are cut into when joined. -/
theorem pieces_joined (some : ps ≠ []) (free : ∀ s ∈ ps, sep ∉ s) :
    pieces sep (joined sep ps) = ps := by
  induction ps with
  | nil => exact absurd rfl some
  | cons p ps ih =>
    obtain ⟨hp, hps⟩ := List.forall_mem_cons.1 free
    cases ps with
    | nil => exact pieces_of_notMem hp
    | cons q ps =>
      rw [joined, pieces_append_sep, pieces_of_notMem hp, ih (List.cons_ne_nil q ps) hps]
      rfl

theorem mem_joined {c : Char} (h : c ∈ joined sep ps) : c = sep ∨ ∃ s ∈ ps, c ∈ s := by
  induction ps with
  | nil => simp [joined] at h
  | cons p ps ih =>
    cases ps with
    | nil => exact .inr ⟨p, List.mem_cons_self, h⟩
    | cons q ps =>
      rw [joined] at h
      rcases List.mem_append.1 h with h | h
      · exact .inr ⟨p, List.mem_cons_self, h⟩
      rcases List.mem_cons.1 h with rfl | h
      · exact .inl rfl
      · refine (ih h).imp_right fun within => ?_
        obtain ⟨s, hs, hc⟩ := within
        exact ⟨s, List.mem_cons_of_mem p hs, hc⟩

theorem infix_joined (h : s ∈ ps) : s <:+: joined sep ps := by
  induction ps with
  | nil => cases h
  | cons p ps ih =>
    cases ps with
    | nil =>
      obtain rfl := List.mem_singleton.1 h
      exact List.infix_rfl
    | cons q ps =>
      rw [joined]
      rcases List.mem_cons.1 h with rfl | h
      · exact (List.prefix_append _ _).isInfix
      · exact (ih h).trans (List.suffix_append_of_suffix (List.suffix_cons sep _)).isInfix

theorem infix_of_mem_pieces (h : s ∈ pieces sep cs) : s <:+: cs := by
  have within : s <:+: joined sep (pieces sep cs) := infix_joined h
  rwa [joined_pieces] at within

/-- The length of joined pieces, when each has a separator behind it. -/
def lengthOf : List (List Char) → Nat
  | [] => 0
  | p :: ps => p.length + 1 + lengthOf ps

@[simp] theorem lengthOf_append (ps qs : List (List Char)) :
    lengthOf (ps ++ qs) = lengthOf ps + lengthOf qs := by
  induction ps with
  | nil => exact (Nat.zero_add _).symm
  | cons p ps ih =>
    rw [List.cons_append, lengthOf, lengthOf, ih]
    exact (Nat.add_assoc _ _ _).symm

@[simp] theorem lengthOf_reverse (ps : List (List Char)) : lengthOf ps.reverse = lengthOf ps := by
  induction ps with
  | nil => rfl
  | cons p ps ih =>
    rw [List.reverse_cons, lengthOf_append, ih, lengthOf, Nat.add_comm]
    rfl

theorem lengthOf_le_of_suffix {ps qs : List (List Char)} (h : ps <:+ qs) :
    lengthOf ps ≤ lengthOf qs := by
  obtain ⟨before, rfl⟩ := h
  rw [lengthOf_append]
  exact Nat.le_add_left _ _

theorem length_joined (some : ps ≠ []) : (joined sep ps).length + 1 = lengthOf ps := by
  induction ps with
  | nil => exact absurd rfl some
  | cons p ps ih =>
    cases ps with
    | nil => rfl
    | cons q ps =>
      have rest := ih (List.cons_ne_nil q ps)
      rw [joined, lengthOf, ← rest, List.length_append, List.length_cons]
      omega

end

/-! ### Segments that stay -/

/-- A segment that stays in a path. -/
structure IsName (s : List Char) : Prop where
  some : s ≠ []
  dot : s ≠ ['.']
  dots : s ≠ ['.', '.']
  slash : '/' ∉ s
  backslash : '\\' ∉ s

theorem IsName.addSegment {s : List Char} (h : IsName s) (path : List (List Char)) :
    addSegment path s = s :: path := by
  rw [ServerMarkup.addSegment, if_neg (by simp [h.some, h.dot]), if_neg h.dots]

/-- Names are all kept. -/
theorem foldl_addSegment {ss : List (List Char)} (names : ∀ s ∈ ss, IsName s)
    (path : List (List Char)) : ss.foldl addSegment path = ss.reverse ++ path := by
  induction ss generalizing path with
  | nil => rfl
  | cons s ss ih =>
    obtain ⟨hs, hss⟩ := List.forall_mem_cons.1 names
    rw [List.foldl_cons, hs.addSegment, ih hss]
    simp

/-- One segment more takes at most one of the path away. -/
theorem tail_suffix_addSegment (path : List (List Char)) (s : List Char) :
    path.tail <:+ addSegment path s := by
  unfold addSegment
  split
  · exact List.tail_suffix path
  · split
    · exact List.suffix_rfl
    · exact (List.tail_suffix path).trans (List.suffix_cons s path)

theorem mem_foldl_addSegment {ss path : List (List Char)} {s : List Char}
    (h : s ∈ ss.foldl addSegment path) :
    s ∈ path ∨ s ∈ ss ∧ s ≠ [] ∧ s ≠ ['.'] ∧ s ≠ ['.', '.'] := by
  induction ss generalizing path with
  | nil => exact .inl h
  | cons r ss ih =>
    rcases ih h with h | ⟨h, stays⟩
    · unfold addSegment at h
      split at h
      · exact .inl h
      · next some =>
        split at h
        · exact .inl (List.mem_of_mem_tail h)
        · next dots =>
          rcases List.mem_cons.1 h with rfl | h
          · exact .inr ⟨List.mem_cons_self, by simp_all⟩
          · exact .inl h
    · exact .inr ⟨List.mem_cons_of_mem r h, stays⟩

/-- What is left of a path are segments of it that are not empty or dots. -/
theorem mem_normalSegments {ss : List (List Char)} {s : List Char} (h : s ∈ normalSegments ss) :
    s ∈ ss ∧ s ≠ [] ∧ s ≠ ['.'] ∧ s ≠ ['.', '.'] :=
  (mem_foldl_addSegment (List.mem_reverse.1 h)).resolve_left List.not_mem_nil

/-! ### Segments of references -/

theorem mem_slashed {c : Char} {cs : List Char} (h : c ∈ slashed cs) :
    c ≠ '\\' ∧ (c = '/' ∨ c ∈ cs) := by
  obtain ⟨d, hd, rfl⟩ := List.mem_map.1 h
  split
  · exact ⟨by decide, .inl rfl⟩
  · next other => exact ⟨other, .inr hd⟩

theorem length_slashed (cs : List Char) : (slashed cs).length = cs.length :=
  List.length_map _

theorem slashed_of_notMem {cs : List Char} (h : '\\' ∉ cs) : slashed cs = cs := by
  refine (List.map_congr_left fun c hc => ?_).trans (List.map_id cs)
  exact if_neg fun (same : c = '\\') => h (same ▸ hc)

theorem eq_of_cutLast {sep : Char} {cs : List Char} {cut : List Char × List Char}
    (h : cutLast sep cs = some cut) : cs = cut.1 ++ sep :: cut.2 := by
  obtain ⟨⟨after, before⟩, hc, rfl⟩ := Option.map_eq_some_iff.1 h
  rw [← List.reverse_reverse cs, eq_of_cutFirst hc]
  simp

/-- A segment of a path is a name, unless it is empty or made of dots. -/
theorem isName_of_mem_pieces {path s : List Char} (hs : s ∈ pieces '/' (slashed path))
    (stays : s ≠ [] ∧ s ≠ ['.'] ∧ s ≠ ['.', '.']) : IsName s where
  some := stays.1
  dot := stays.2.1
  dots := stays.2.2
  slash := not_mem_of_mem_pieces hs
  backslash hc := (mem_slashed ((infix_of_mem_pieces hs).subset hc)).1 rfl

/-- The directory of a path has segments of it. -/
theorem mem_pieces_directoryOf {path s : List Char} (h : s ∈ pieces '/' (directoryOf path)) :
    s = [] ∨ s ∈ pieces '/' path := by
  unfold directoryOf at h
  cases hc : cutLast '/' path with
  | none =>
    rw [hc] at h
    exact .inl (List.mem_singleton.1 h)
  | some cut =>
    rw [hc] at h
    rw [eq_of_cutLast hc, pieces_append_sep]
    exact .inr (List.mem_append_left _ h)

/-- The segments that a reference names end with its own, but for the first. -/
theorem exists_namedSegments (current reference : List Char) :
    ∃ lead, namedSegments current reference =
      lead ++ (pieces '/' (slashed (trim reference))).tail := by
  unfold namedSegments
  split
  · next rest h => exact ⟨[], by simp [h, pieces]⟩
  · next rest h => exact ⟨[], by simp [h, pieces]⟩
  · refine ⟨pieces '/' (directoryOf (slashed current)) ++
      (pieces '/' (slashed (trim reference))).take 1, ?_⟩
    rw [List.append_assoc, ← List.drop_one, List.take_append_drop]

/-- A segment that a reference names is one of its own or one of the path it stands in. -/
theorem mem_namedSegments {current reference s : List Char}
    (h : s ∈ namedSegments current reference) : s = [] ∨ s ∈ pieces '/' (slashed current) ∨
      s ∈ pieces '/' (slashed (trim reference)) := by
  unfold namedSegments at h
  split at h
  · next rest hr =>
    refine .inr (.inr ?_)
    rw [hr]
    simpa [pieces] using .inr h
  · next rest hr =>
    refine .inr (.inr ?_)
    rw [hr]
    simpa [pieces] using .inr h
  · rcases List.mem_append.1 h with h | h
    · exact (mem_pieces_directoryOf h).imp_right .inl
    · exact .inr (.inr h)

/-! ### Normal paths -/

theorem trimStart_append_slash (a b : List Char) :
    trimStart (a ++ '/' :: b) = trimStart a ++ '/' :: b := by
  unfold trimStart
  rw [List.dropWhile_append]
  split
  · next blank =>
    rw [List.isEmpty_iff.1 blank]
    rfl
  · rfl

theorem trimEnd_append_slash (a b : List Char) :
    trimEnd (a ++ '/' :: b) = a ++ '/' :: trimEnd b := by
  have reversed := trimStart_append_slash b.reverse a.reverse
  simpa [trimStart, trimEnd] using congrArg List.reverse reversed

theorem trimEnd_joined (ps : List (List Char)) (last : List Char) :
    trimEnd (joined '/' (ps ++ [last])) = joined '/' (ps ++ [trimEnd last]) := by
  induction ps with
  | nil => rfl
  | cons p ps ih =>
    rw [List.cons_append, List.cons_append, joined_cons (by simp), joined_cons (by simp),
      trimEnd_append_slash, ih]

/-- Blanks at the ends of a path are those of its first segment and of its last. -/
theorem trim_joined (first : List Char) (ps : List (List Char)) (last : List Char) :
    trim (joined '/' (first :: (ps ++ [last]))) =
      joined '/' (trimStart first :: (ps ++ [trimEnd last])) := by
  rw [joined_cons (by simp), joined_cons (by simp), trim, trimStart_append_slash,
    trimEnd_append_slash, trimEnd_joined]

theorem pieces_trim_joined {first last : List Char} {ps : List (List Char)} (hf : '/' ∉ first)
    (hps : ∀ s ∈ ps, '/' ∉ s) (hl : '/' ∉ last) :
    pieces '/' (trim (joined '/' (first :: (ps ++ [last])))) =
      trimStart first :: (ps ++ [trimEnd last]) := by
  rw [trim_joined]
  refine pieces_joined (List.cons_ne_nil _ _) ?_
  intro s hs
  rcases List.mem_cons.1 hs with rfl | hs
  · exact fun h => hf ((infix_trimStart first).subset h)
  rcases List.mem_append.1 hs with hs | hs
  · exact hps s hs
  · obtain rfl := List.mem_singleton.1 hs
    exact fun h => hl ((infix_trimEnd last).subset h)

theorem lengthOf_le_joined (ps : List (List Char)) :
    lengthOf ps ≤ (joined '/' ps).length + 1 := by
  cases ps with
  | nil => exact Nat.zero_le _
  | cons p ps => exact Nat.le_of_eq (length_joined (List.cons_ne_nil p ps)).symm

/-- Before the last segment of a path all names are kept but one, whatever stands before them. -/
theorem lengthOf_normalSegments {ps : List (List Char)} {n : Nat}
    (h : ∀ s ∈ ps, IsName s ∧ s.length ≤ n) (lead : List (List Char)) (last : List Char) :
    lengthOf ps ≤ lengthOf (normalSegments (lead ++ (ps ++ [last]))) + (n + 1) := by
  unfold normalSegments
  rw [lengthOf_reverse, List.foldl_append, List.foldl_append,
    foldl_addSegment fun s hs => (h s hs).1]
  generalize lead.foldl addSegment [] = path
  have kept := lengthOf_le_of_suffix (tail_suffix_addSegment (ps.reverse ++ path) last)
  rw [← lengthOf_reverse ps]
  cases hr : ps.reverse with
  | nil => exact Nat.zero_le _
  | cons taken rest =>
    rw [hr, List.cons_append, List.tail_cons, lengthOf_append] at kept
    have short : taken.length ≤ n := (h taken (List.mem_reverse.1 (by simp [hr]))).2
    rw [lengthOf, List.foldl_cons, List.foldl_nil, List.cons_append]
    omega

theorem length_normalPath (cs : List Char) : (normalPath (String.ofList cs)).length =
    (joined '/' (normalSegments (namedSegments [] cs))).length := by
  simp only [normalPath, resolveReference, String.length_ofList, String.toList_ofList]
  rfl

/-- A path is not much longer than its normal path. -/
theorem length_le_normalPath {names : List (List Char)} {n : Nat}
    (h : ∀ s ∈ names, IsName s ∧ s.length ≤ n) :
    (joined '/' names).length ≤
      (normalPath (String.ofList (joined '/' names))).length + 3 * n + 3 := by
  cases names with
  | nil => exact Nat.zero_le _
  | cons first rest =>
    obtain ⟨hf, hrest⟩ := List.forall_mem_cons.1 h
    rcases rest.eq_nil_or_concat with rfl | ⟨ps, last, rfl⟩
    · have short : (joined '/' [first]).length ≤ n := hf.2
      omega
    · have hps : ∀ s ∈ ps, IsName s ∧ s.length ≤ n :=
        fun s hs => hrest s (by simp [hs])
      have hl := hrest last (by simp)
      have free : '\\' ∉ trim (joined '/' (first :: (ps ++ [last]))) := by
        intro hc
        rcases mem_joined ((infix_trim _).subset hc) with slash | ⟨s, hs, hc⟩
        · exact absurd slash (by decide)
        · exact (h s (by simpa using hs)).1.backslash hc
      obtain ⟨lead, named⟩ := exists_namedSegments []
        (joined '/' (first :: (ps ++ [last])))
      rw [slashed_of_notMem free, pieces_trim_joined hf.1.slash (fun s hs => (hps s hs).1.slash)
        hl.1.slash, List.tail_cons] at named
      have whole : (joined '/' (first :: (ps ++ [last]))).length + 1 =
          lengthOf (first :: (ps ++ [last])) := length_joined (List.cons_ne_nil _ _)
      have kept := lengthOf_normalSegments hps lead (trimEnd last)
      have normal := lengthOf_le_joined (normalSegments (lead ++ (ps ++ [trimEnd last])))
      have stop := hl.2
      have start := hf.2
      rw [List.concat_eq_append, length_normalPath, named]
      rw [lengthOf, lengthOf_append, lengthOf, lengthOf] at whole
      omega

/-! ### Bounded paths -/

section
variable {n : Nat} {letters : List Char}

/-- The path is over the letters, and none of its segments is longer than `n`. -/
structure Within (n : Nat) (letters path : List Char) : Prop where
  short : ∀ s ∈ pieces '/' (slashed path), s.length ≤ n
  chars : ∀ c ∈ path, c ∈ letters

/-- The path is made of names over the letters that are not longer than `n`. -/
def OfNames (n : Nat) (letters : List Char) (path : String) : Prop :=
  ∃ names, path.toList = joined '/' names ∧
    ∀ s ∈ names, IsName s ∧ s.length ≤ n ∧ ∀ c ∈ s, c ∈ letters

theorem within_of_length {path : List Char} (short : path.length ≤ n)
    (chars : ∀ c ∈ path, c ∈ letters) : Within n letters path := by
  refine ⟨fun s hs => ?_, chars⟩
  have le := (infix_of_mem_pieces hs).length_le
  rw [length_slashed] at le
  exact Nat.le_trans le short

/-- A segment of a bounded path is a name, if it stays. -/
theorem Within.name {path s : List Char} (h : Within n letters path)
    (hs : s ∈ pieces '/' (slashed path)) (stays : s ≠ [] ∧ s ≠ ['.'] ∧ s ≠ ['.', '.']) :
    IsName s ∧ s.length ≤ n ∧ ∀ c ∈ s, c ∈ letters := by
  have name := isName_of_mem_pieces hs stays
  refine ⟨name, h.short s hs, fun c hc => ?_⟩
  rcases (mem_slashed ((infix_of_mem_pieces hs).subset hc)).2 with rfl | mem
  · exact absurd hc name.slash
  · exact h.chars c mem

/-- A reference in a bounded path leads to one made of names. -/
theorem names_resolveReference {current reference : String}
    (hc : Within n letters current.toList) (hr : Within n letters (trim reference.toList)) :
    OfNames n letters (resolveReference current reference) := by
  refine ⟨normalSegments (namedSegments current.toList reference.toList), String.toList_ofList,
    fun s hs => ?_⟩
  obtain ⟨hs, stays⟩ := mem_normalSegments hs
  rcases mem_namedSegments hs with empty | hs | hs
  · exact absurd empty stays.1
  · exact hc.name hs stays
  · exact hr.name hs stays

namespace OfNames

variable {path : String}

theorem within (h : OfNames n letters path) (slash : '/' ∈ letters) :
    Within n letters path.toList := by
  obtain ⟨names, hp, hn⟩ := h
  rw [hp]
  have free : '\\' ∉ joined '/' names := by
    intro hc
    rcases mem_joined hc with same | ⟨s, hs, hc⟩
    · exact absurd same (by decide)
    · exact (hn s hs).1.backslash hc
  refine ⟨fun s hs => ?_, fun c hc => ?_⟩
  · rw [slashed_of_notMem free] at hs
    cases names with
    | nil =>
      obtain rfl := List.mem_singleton.1 hs
      exact Nat.zero_le n
    | cons name names =>
      rw [pieces_joined (List.cons_ne_nil name names) fun s hs => (hn s hs).1.slash] at hs
      exact (hn s hs).2.1
  · rcases mem_joined hc with rfl | ⟨s, hs, hc⟩
    · exact slash
    · exact (hn s hs).2.2 c hc

theorem length_le (h : OfNames n letters path) :
    path.toList.length ≤ (normalPath path).length + 3 * n + 3 := by
  obtain ⟨names, hp, hn⟩ := h
  have le := length_le_normalPath fun s hs => ⟨(hn s hs).1, (hn s hs).2.1⟩
  rwa [← hp, String.ofList_toList] at le

end OfNames

end

end ServerMarkup
