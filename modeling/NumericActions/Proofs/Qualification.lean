import NumericActions.Proofs.Scopes

/-!
# Names taken apart

A name is taken apart at its last slash: the segments before it are the scope of the name, and
the one behind it is the short name. Qualifying the short name puts it back behind the scope. A
name of one segment has an empty scope, and qualifying in the empty scope adds no slash, so the
two are inverse there as well.

* `ActionName.splitAtLastSlash_name`: the scope and the short name are what stands before and
  behind the last slash.
* `ActionName.qualify_scope_shortName`: a name is its short name in its scope.
* `ActionName.scope_shortName_of_qualify`: the scope and the short name of a qualified name.
* `ActionSpec.qualify_inverse`: both directions for specifications, and names that are qualified
  differently.
-/

namespace NumericActions

/-! ## The last slash -/

/-- The parts of a text before and behind its last slash. Without a slash nothing is before
it. -/
def splitAtLastSlash (text : List Char) : List Char × List Char :=
  match text.reverse.dropWhile (· != '/') with
  | [] => ([], text)
  | _ :: before => (before.reverse, (text.reverse.takeWhile (· != '/')).reverse)

section

variable {last : List Char} (h : '/' ∉ last)

include h

theorem forall_mem_reverse_ne : ∀ c ∈ last.reverse, (c != '/') = true := by
  intro c hc
  rw [bne_iff_ne]
  exact fun heq => h (heq ▸ List.mem_reverse.mp hc)

theorem splitAtLastSlash_of_notMem : splitAtLastSlash last = ([], last) := by
  have hnone : (last.reverse ++ []).dropWhile (· != '/') = [] :=
    List.dropWhile_append_of_pos (forall_mem_reverse_ne h)
  rw [List.append_nil] at hnone
  rw [splitAtLastSlash, hnone]

theorem splitAtLastSlash_append (before : List Char) :
    splitAtLastSlash (before ++ '/' :: last) = (before, last) := by
  have hreverse : (before ++ '/' :: last).reverse = last.reverse ++ '/' :: before.reverse := by
    simp
  rw [splitAtLastSlash, hreverse, List.dropWhile_append_of_pos (forall_mem_reverse_ne h),
    List.takeWhile_append_of_pos (forall_mem_reverse_ne h),
    List.dropWhile_cons_of_neg (by decide), List.takeWhile_cons_of_neg (by decide)]
  simp

end

/-! ## The segments of a name -/

theorem joinSegments_concat {parts : List (List Char)} (hne : parts ≠ []) (last : List Char) :
    joinSegments (parts ++ [last]) = joinSegments parts ++ '/' :: last := by
  cases parts with
  | nil => exact absurd rfl hne
  | cons part parts =>
    rw [List.cons_append, joinSegments_cons, joinSegments_cons, List.map_append,
      List.flatten_append, List.append_assoc]
    simp

namespace ActionName

variable (name : ActionName)

theorem isSegment_of_mem {part : List Char} (h : part ∈ segments name.text.toList) :
    isSegment part = true :=
  badSegment?_eq_none_iff.mp name.valid part h

theorem isSegment_shortName : isSegment name.shortName.toList = true := by
  rw [shortName, String.toList_ofList]
  exact name.isSegment_of_mem (List.getLast_mem _)

/-- A name is one segment, which is the short name then, or it has a slash behind its scope. -/
theorem scope_cases :
    (name.scope = "" ∧ name.text.toList = name.shortName.toList) ∨
      (name.scope ≠ "" ∧ IsName name.scope ∧
        name.text.toList = name.scope.toList ++ '/' :: name.shortName.toList) := by
  have hconcat := List.dropLast_append_getLast (segments_ne_nil name.text.toList)
  have htext := joinSegments_segments name.text.toList
  have hsegment : ∀ part ∈ (segments name.text.toList).dropLast, isSegment part = true :=
    fun part hpart => name.isSegment_of_mem (List.mem_of_mem_dropLast hpart)
  rw [scope, shortName, String.toList_ofList]
  generalize (segments name.text.toList).getLast (segments_ne_nil _) = last at hconcat ⊢
  by_cases hone : (segments name.text.toList).dropLast = []
  · rw [hone, List.nil_append] at hconcat
    rw [← hconcat] at htext
    exact .inl ⟨by rw [hone]; rfl, htext.symm⟩
  · have hparts : segments (joinSegments (segments name.text.toList).dropLast) =
        (segments name.text.toList).dropLast :=
      segments_joinSegments hone fun part hpart => slash_notMem_of_isSegment (hsegment part hpart)
    refine .inr ⟨fun hempty => ?_, ?_, ?_⟩
    · -- the only part of an empty text is no segment
      rw [String.ofList_eq_empty_iff.mp hempty] at hparts
      exact absurd (hsegment [] (hparts ▸ List.mem_singleton_self _)) Bool.false_ne_true
    · rw [isName_iff, String.toList_ofList, hparts]
      exact hsegment
    · rw [String.toList_ofList, ← joinSegments_concat hone, hconcat, htext]

theorem scope_eq_or_isName : name.scope = "" ∨ IsName name.scope := by
  rcases name.scope_cases with ⟨hscope, -⟩ | ⟨-, hscope, -⟩
  · exact .inl hscope
  · exact .inr hscope

/-- The scope and the short name are what stands before and behind the last slash. -/
theorem splitAtLastSlash_name :
    splitAtLastSlash name.text.toList = (name.scope.toList, name.shortName.toList) := by
  have hslash := slash_notMem_of_isSegment name.isSegment_shortName
  rcases name.scope_cases with ⟨hscope, htext⟩ | ⟨-, -, htext⟩
  · rw [htext, hscope, splitAtLastSlash_of_notMem hslash]
    rfl
  · rw [htext, splitAtLastSlash_append hslash]

theorem qualify_scope_shortName : qualify name.scope name.shortName = name.text := by
  rw [← String.toList_inj]
  rcases name.scope_cases with ⟨hscope, htext⟩ | ⟨hscope, -, htext⟩
  · rw [qualify, if_pos (String.isEmpty_iff.mpr hscope), htext]
  · rw [toList_qualify hscope, htext]

end ActionName

/-! ## Qualified names -/

theorem isScope_iff {scope : String} : IsScope scope ↔ scope = "" ∨ IsName scope := by
  rw [IsScope, isName_iff]

/-- A slash in front of the short name is the last one of a qualified name. -/
theorem splitAtLastSlash_qualify {short : String} (h : isSegment short.toList = true)
    (scope : String) :
    splitAtLastSlash (qualify scope short).toList = (scope.toList, short.toList) := by
  have hslash := slash_notMem_of_isSegment h
  by_cases hscope : scope = ""
  · subst hscope
    exact splitAtLastSlash_of_notMem hslash
  · rw [toList_qualify hscope, splitAtLastSlash_append hslash]

theorem ActionName.scope_shortName_of_qualify {name : ActionName} {scope short : String}
    (h : isSegment short.toList = true) (hname : name.text = qualify scope short) :
    name.scope = scope ∧ name.shortName = short := by
  have hsplit := name.splitAtLastSlash_name
  rw [hname, splitAtLastSlash_qualify h, Prod.mk.injEq, String.toList_inj, String.toList_inj]
    at hsplit
  exact ⟨hsplit.1.symm, hsplit.2.symm⟩

theorem qualify_pair_inj {scope short scope' short' : String} (h : isSegment short.toList = true)
    (h' : isSegment short'.toList = true) (heq : qualify scope short = qualify scope' short') :
    scope = scope' ∧ short = short' := by
  have hsplit := splitAtLastSlash_qualify h scope
  rw [heq, splitAtLastSlash_qualify h', Prod.mk.injEq, String.toList_inj, String.toList_inj]
    at hsplit
  exact ⟨hsplit.1.symm, hsplit.2.symm⟩

namespace ActionSpec

/-- Every name that a specification takes is its short name in its scope. The two are the parts
before and behind the last slash; the scope is empty or a name itself, and the short name is one
segment. Conversely a short name that is one segment, in the empty scope or in one that is a name
itself, is a name that a specification takes with all values of the other fields, and the name has
this scope and this short name. So differently qualified names are different. -/
theorem qualify_inverse :
    (∀ fields spec, ofFields? fields = .ok spec →
      fields.lookup "name" = some (.text spec.name.text) ∧
        splitAtLastSlash spec.name.text.toList =
          (spec.name.scope.toList, spec.name.shortName.toList) ∧
        (spec.name.scope = "" ∨ IsName spec.name.scope) ∧
        isSegment spec.name.shortName.toList = true ∧
        qualify spec.name.scope spec.name.shortName = spec.name.text) ∧
    (∀ scope short, (scope = "" ∨ IsName scope) → isSegment short.toList = true →
      ∃ name : ActionName, name.text = qualify scope short ∧ name.scope = scope ∧
        name.shortName = short ∧
        ∀ minimum d description,
          ofFields? (statedFields (qualify scope short) minimum d description) =
            .ok ⟨name, minimum, d, description⟩) ∧
    ∀ scope short scope' short', (scope = "" ∨ IsName scope) → isSegment short.toList = true →
      (scope' = "" ∨ IsName scope') → isSegment short'.toList = true →
      qualify scope short = qualify scope' short' → scope = scope' ∧ short = short' := by
  refine ⟨?_, ?_, ?_⟩
  · intro fields spec h
    rw [ofFields?, read?_eq_ok_iff] at h
    obtain ⟨v, hlookup, hv⟩ := h.name
    refine ⟨?_, spec.name.splitAtLastSlash_name, spec.name.scope_eq_or_isName,
      spec.name.isSegment_shortName, spec.name.qualify_scope_shortName⟩
    cases v <;> cases hv
    exact hlookup
  · intro scope short hscope hshort
    obtain ⟨name, hname⟩ := (isName_qualify_iff hshort).mpr (isScope_iff.mpr hscope)
    have htext := Field.text_of_name hname
    obtain ⟨hnameScope, hnameShort⟩ := ActionName.scope_shortName_of_qualify hshort htext
    refine ⟨name, htext, hnameScope, hnameShort, fun minimum d description => ?_⟩
    rw [ofFields?_stated, hname]
  · intro scope short scope' short' _ hshort _ hshort'
    exact qualify_pair_inj hshort hshort'

/-- A scope of two segments, and the empty one. -/
theorem qualify_inverse_stats :
    (∃ name : ActionName, name.text = "text/stats/max-len" ∧ name.scope = "text/stats" ∧
      name.shortName = "max-len") ∧
    (∃ name : ActionName, name.text = "max-len" ∧ name.scope = "" ∧ name.shortName = "max-len") ∧
    ∃ spec, ofFields? (statedFields "text/stats/max-len" 2 .windowed "") = .ok spec ∧
      qualify spec.name.scope spec.name.shortName = "text/stats/max-len" := by
  obtain ⟨hsplit, hqualify, -⟩ := qualify_inverse
  have hscope : IsName "text/stats" := isName_iff.mpr (by decide)
  obtain ⟨name, htext, hnameScope, hnameShort, hfields⟩ :=
    hqualify "text/stats" "max-len" (.inr hscope) (by decide)
  obtain ⟨bare, hbare, hbareScope, hbareShort, -⟩ := hqualify "" "max-len" (.inl rfl) (by decide)
  refine ⟨⟨name, htext, hnameScope, hnameShort⟩, ⟨bare, hbare, hbareScope, hbareShort⟩, ?_⟩
  have hspec := hfields 2 .windowed ""
  exact ⟨_, hspec, (hsplit _ _ hspec).2.2.2.2.trans htext⟩

end ActionSpec

end NumericActions
