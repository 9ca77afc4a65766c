import Mathlib.Data.List.Forall2
import NumericActions.Proofs.Attribution
import NumericActions.Proofs.Registration

/-!
# Names in the catalogue

The ways of grouping hand the name of an action to the traversal of its arguments and to its
parameters, and the entries of the catalogue hand it to their functions. None of them does
anything else with it, so every entry does under every name what it does without one.

* `Source.Delivers`: the faults with which a source can end.
* `attributes_elementwise`, `attributes_windowed`, `attributes_aggregate`,
  `attributes_parameterized`: the ways of grouping.
* `Attributed.Entry.Matches`, `Attributed.forall₂_catalogue`: the entries that are given names, and
  those of the catalogue, row by row.
-/

namespace NumericActions

/-! ## What a source delivers -/

namespace Source

variable {σ α : Type} (source : Source σ α)

/-- A fault with which a source can end. -/
def Delivers (fault : Fault) : Prop := ∃ s, source.pull s = .failed fault

theorem delivers_of_stop_readOnto {count : Nat} {handle : Option σ} {seen : List α} {fault : Fault}
    (h : (source.readOnto count handle seen).stop = .failed fault) : source.Delivers fault := by
  fun_induction source.readOnto count handle seen with
  | case1 => cases h
  | case2 => cases h
  | case3 count s seen a rest hp ih => exact ih h
  | case4 count s seen other hp =>
    cases h
    exact ⟨s, hp⟩
  | case5 => cases h

theorem delivers_of_stop_slice {count : Nat} {handle : Option σ} {fault : Fault}
    (h : (source.slice count handle).stop = .failed fault) :
    fault = .misuse .advance ∨ source.Delivers fault := by
  unfold slice at h
  split at h
  · cases h
    exact .inl rfl
  · exact .inr (source.delivers_of_stop_readOnto h)

theorem delivers_windowed {w : Window} {fault : Fault} (h : (source.windowed w).Delivers fault) :
    fault = .misuse .advance ∨ source.Delivers fault := by
  obtain ⟨s, hs⟩ := h
  have hs : s.pull source = .failed fault := hs
  unfold Windowing.pull at hs
  dsimp only at hs
  split at hs
  · rename_i hstop
    cases hs
    exact source.delivers_of_stop_slice hstop
  · split at hs
    · rename_i hstop
      cases hs
      exact source.delivers_of_stop_slice hstop
    · cases hs
    · cases hs

end Source

theorem Cursor.delivers_source {fault : Fault} (h : Cursor.source.Delivers fault) :
    ∃ v, fault = .invalidTerm v := by
  obtain ⟨c, hc⟩ := h
  unfold source at hc
  dsimp only at hc
  split at hc <;> cases hc
  exact ⟨_, rfl⟩

/-! ## Ways of grouping -/

section Grouping

variable {action : Option String} {α : Type}

theorem Source.attributes_collectOnto {σ β : Type} (source : Source σ α) {turned : Fault → Report}
    (hturned : ∀ fault, source.Delivers fault → turned fault = fault.raised action)
    {f : α → Except Report β} {g : α → Except Fault β} (hf : ∀ a, Attributes action (f a) (g a))
    (handle : Option σ) (done : List β) :
    Attributes action (source.collectOnto turned f handle done) (source.mapOnto g handle done) := by
  fun_induction source.mapOnto g handle done with
  | case1 done =>
    rw [collectOnto_none]
    exact attributes_ok _
  | case2 done s a rest hp b hb ih =>
    have ha : f a = .ok b := by
      rw [hf a, hb]
      rfl
    rw [collectOnto_of_item _ _ _ hp, ha]
    exact ih
  | case3 done s a rest hp fault hb =>
    have ha : f a = .error (fault.raised action) := by
      rw [hf a, hb]
      rfl
    rw [collectOnto_of_item _ _ _ hp, ha]
    rfl
  | case4 done s fault hp =>
    rw [collectOnto_of_failed _ _ _ hp, hturned fault ⟨s, hp⟩]
    rfl
  | case5 done s hp =>
    rw [collectOnto_of_ended _ _ _ hp]
    exact attributes_ok _

theorem pulled_of_delivers {fault : Fault} (h : Cursor.source.Delivers fault) :
    Attributed.pulled action fault = fault.raised action := by
  obtain ⟨v, rfl⟩ := Cursor.delivers_source h
  rfl

theorem pulled_of_delivers_windowed {w : Window} {fault : Fault}
    (h : (Cursor.source.windowed w).Delivers fault) :
    Attributed.pulled action fault = fault.raised action := by
  rcases Cursor.source.delivers_windowed h with rfl | h
  · rfl
  · exact pulled_of_delivers h

theorem attributes_elementwise {f : Number → Except Report α} {g : Number → Except Fault α}
    (hf : ∀ x, Attributes action (f x) (g x)) (terms : List Value) :
    Attributes action (Attributed.elementwise action f terms) (elementwise g terms) :=
  Cursor.source.attributes_collectOnto (fun _ => pulled_of_delivers) hf _ _

theorem attributes_windowed {w : Window} {f : List Number → Except Report α}
    {g : List Number → Except Fault α} (hf : ∀ window, Attributes action (f window) (g window))
    (terms : List Value) :
    Attributes action (Attributed.windowed action w f terms) (windowed w g terms) :=
  (Cursor.source.windowed w).attributes_collectOnto (fun _ => pulled_of_delivers_windowed) hf _ _

theorem attributes_aggregate {f : List Number → Except Report α} {g : List Number → Except Fault α}
    (hf : ∀ values, Attributes action (f values) (g values)) (terms : List Value) :
    Attributes action (Attributed.aggregate action f terms) (aggregate g terms) :=
  attributes_bind
    (Cursor.source.attributes_collectOnto (fun _ => pulled_of_delivers) attributes_ok _ _) hf

/-- What is wrong with a parameter is said without a name, and then said again with it. -/
theorem attributes_numbersFrom (index : Nat) (terms : List Value) :
    Attributes action (Attributed.numbersFrom action index terms) (numbersFrom index terms) := by
  induction terms generalizing index with
  | nil => exact attributes_ok []
  | cons v vs ih =>
    unfold Attributed.numbersFrom numbersFrom Attributed.ensureNumber
    cases hv : v.number? with
    | some n => exact attributes_bind_pure (ih (index + 1)) (n :: ·)
    | none =>
      have hwords : (Fault.invalidParameter index v).text =
          s!"parameter #{index} " ++ (Fault.notANumber v).text := String.append_assoc
      show Except.error _ = Except.error ((Fault.invalidParameter index v).raised action)
      rw [Fault.raised, hwords]
      rfl

theorem attributes_parameterized {layout : ParameterLayout}
    {f : List Number → Number → Except Report α} {g : List Number → Number → Except Fault α}
    (hf : ∀ parameters value, Attributes action (f parameters value) (g parameters value))
    (terms : List Value) :
    Attributes action (Attributed.parameterized action layout f terms)
      (parameterized layout g terms) := by
  apply attributes_bind (attributes_numbersFrom 0 _)
  intro parameters
  have hskip : (Fault.misuse .skip).Nameless := rfl
  apply attributes_ite (attributes_unnamed (ends_error hskip))
  have hrest := Cursor.source.attributes_collectOnto (fun _ => pulled_of_delivers) (hf parameters)
    (Cursor.source.read layout.skip.toNat (Cursor.opened terms)).rest []
  cases hstop : (Cursor.source.read layout.skip.toNat (Cursor.opened terms)).stop with
  | failed fault =>
    have hfault := Cursor.source.delivers_of_stop_readOnto hstop
    simp only [hstop]
    exact congrArg Except.error (pulled_of_delivers hfault)
  | limit =>
    simp only [hstop]
    exact hrest
  | ended =>
    simp only [hstop]
    exact hrest

end Grouping

/-! ## Entries -/

namespace Attributed

variable {library : Elementary}

/-- The entry does under every name what the entry of the catalogue does without one. -/
structure Entry.Matches (entry : Entry) (plain : CatalogueEntry) : Prop where
  shortName : entry.shortName = plain.shortName
  minimalArguments : entry.minimalArguments = plain.minimalArguments
  evaluate : ∀ action arguments, Attributes action (entry.method.evaluate action arguments)
    (plain.method.evaluate arguments)

section Methods

variable {action : Option String}

theorem attributes_ofReal {f : Binary64 → Except Fault Value}
    (hf : ∀ x, Ends (f x) Fault.Nameless fun _ => True) (arguments : List Value) :
    Attributes action ((ofReal f).evaluate action arguments)
      ((NumericActions.Method.elementwise fun x => f x.toBinary64).evaluate arguments) :=
  attributes_elementwise (fun x => attributes_unnamed (hf x.toBinary64)) arguments

theorem attributes_ofIntegers {f : Option String → Int → Except Report Value}
    {g : Int → Except Fault Value} (hf : ∀ n, Attributes action (f action n) (g n))
    (arguments : List Value) :
    Attributes action ((ofIntegers f).evaluate action arguments)
      ((NumericActions.ofIntegers g).evaluate arguments) :=
  attributes_elementwise (fun x => attributes_bind (attributes_toInt64 action x) hf) arguments

theorem attributes_ofPair {signature : Signature}
    {f : Option String → Number → Number → Except Report Value}
    {g : Number → Number → Except Fault Value}
    (hf : ∀ a b, Attributes action (f action a b) (g a b)) (window : List Number) :
    Attributes action (ofPair signature f action window)
      (NumericActions.ofPair signature g window) := by
  have hcount : ∀ given, (Fault.argumentCount signature given).Nameless := fun _ => rfl
  rcases window with _ | ⟨a, _ | ⟨b, _ | ⟨c, rest⟩⟩⟩
  · exact attributes_unnamed (ends_error (hcount _))
  · exact attributes_unnamed (ends_error (hcount _))
  · exact hf a b
  · exact attributes_unnamed (ends_error (hcount _))

theorem attributes_ofIntegerPairs (name : String)
    {f : Option String → Int → Int → Except Report Int} {g : Int → Int → Except Fault Int}
    (hf : ∀ n k, Attributes action (f action n k) (g n k)) (arguments : List Value) :
    Attributes action ((ofIntegerPairs name f).evaluate action arguments)
      ((NumericActions.ofIntegerPairs name g).evaluate arguments) := by
  refine attributes_windowed (attributes_ofPair fun a b => ?_) arguments
  apply attributes_bind (attributes_toInt64 action a)
  intro n
  apply attributes_bind (attributes_toInt64 action b)
  intro k
  exact attributes_bind_pure (hf n k) _

theorem attributes_ofReduction {f : Option String → List Number → Except Report Binary64}
    {g : List Number → Except Fault Binary64}
    (hf : ∀ values, Attributes action (f action values) (g values)) (arguments : List Value) :
    Attributes action ((ofReduction f).evaluate action arguments)
      ((NumericActions.ofReduction g).evaluate arguments) :=
  attributes_bind_pure
    (attributes_aggregate (fun values => attributes_bind_pure (hf values) _) arguments) _

theorem attributes_ofPosition {f : Option String → List Number → Except Report Nat}
    {g : List Number → Except Fault Nat}
    (hf : ∀ values, Attributes action (f action values) (g values)) (arguments : List Value) :
    Attributes action ((ofPosition f).evaluate action arguments)
      ((NumericActions.ofPosition g).evaluate arguments) :=
  attributes_bind_pure
    (attributes_aggregate (fun values => attributes_bind_pure (hf values) _) arguments) _

theorem attributes_ofParameters {layout : ParameterLayout} {f : List Binary64 → Except Fault Value}
    (hf : ∀ values, Ends (f values) Fault.Nameless fun _ => True) (arguments : List Value) :
    Attributes action
      ((Method.parameterized layout fun values => unnamed (f values)).evaluate action arguments)
      ((NumericActions.Method.parameterized layout f).evaluate arguments) :=
  attributes_parameterized (fun _ _ => attributes_unnamed (hf _)) arguments

end Methods

/-! ## The catalogue row by row -/

theorem matches_floatFunction (f : FloatFunction) :
    Entry.Matches ⟨f.name, 1, ofReal fun x => .ok (.float (f.apply library x))⟩
      (f.entry library) := by
  have hok : ∀ x, Ends (.ok (.float (f.apply library x)) : Except Fault Value) Fault.Nameless
      fun _ => True := fun x => ends_ok trivial
  exact ⟨rfl, rfl, fun _ => attributes_ofReal hok⟩

theorem forall₂_elementwiseEntries : List.Forall₂ Entry.Matches (elementwiseEntries library)
    (NumericActions.elementwiseEntries library) := by
  apply List.rel_append
  · rw [List.forall₂_map_left_iff, List.forall₂_map_right_iff, List.forall₂_same]
    exact fun f _ => matches_floatFunction f
  refine .cons ?_ (.cons ?_ (.cons ?_ (.cons ?_ (.cons ?_ .nil))))
  · have hround : ∀ x, Ends (do return .number (← roundHalfUp x) : Except Fault Value)
        Fault.Nameless fun _ => True := fun x => ends_bind_pure (nameless_roundHalfUp x) _
    exact ⟨rfl, rfl, fun _ => attributes_ofReal hround⟩
  · refine ⟨rfl, rfl, fun action => attributes_ofIntegers fun n => ?_⟩
    exact attributes_bind_pure (attributes_isPrime action n) _
  · refine ⟨rfl, rfl, fun action => attributes_ofIntegers fun n => ?_⟩
    exact attributes_bind_pure (attributes_nextPrime action n) _
  · refine ⟨rfl, rfl, fun action => attributes_ofIntegers fun n => ?_⟩
    exact attributes_bind_pure (attributes_factorial action n) _
  · refine ⟨rfl, rfl, fun action => attributes_ofIntegers fun n => ?_⟩
    apply attributes_bind (attributes_primeFactors action n)
    intro factors
    exact attributes_bind_pure
      (attributes_mapM factors fun p => attributes_unnamed (nameless_ofInt p)) _

theorem forall₂_windowedEntries :
    List.Forall₂ Entry.Matches windowedEntries NumericActions.windowedEntries := by
  refine .cons ?_ (.cons ?_ (.cons ?_ .nil))
  · exact ⟨rfl, rfl, fun _ => attributes_windowed (attributes_ofPair fun _ _ => attributes_ok _)⟩
  · exact ⟨rfl, rfl, fun action => attributes_ofIntegerPairs _ (attributes_stirling action)⟩
  · exact ⟨rfl, rfl, fun action => attributes_ofIntegerPairs _ (attributes_binomial action)⟩

theorem nameless_total (values : List Number) :
    Ends (total values) Fault.Nameless fun _ => True :=
  nameless_sum (widened values)

theorem forall₂_aggregateEntries : List.Forall₂ Entry.Matches (aggregateEntries library)
    (NumericActions.aggregateEntries library) := by
  refine .cons ?_ (.cons ?_ (.cons ?_ (.cons ?_ (.cons ?_ (.cons ?_ (.cons ?_ (.cons ?_ .nil)))))))
  · refine ⟨rfl, rfl, fun _ => attributes_ofReduction fun values => ?_⟩
    exact attributes_unnamed (nameless_total values)
  · exact ⟨rfl, rfl, fun action => attributes_ofReduction (attributes_average action)⟩
  · exact ⟨rfl, rfl, fun action => attributes_ofReduction (attributes_extreme action _)⟩
  · exact ⟨rfl, rfl, fun action => attributes_ofReduction (attributes_extreme action _)⟩
  · exact ⟨rfl, rfl, fun action => attributes_ofReduction (attributes_harmonicMean action)⟩
  · exact ⟨rfl, rfl, fun action => attributes_ofReduction (attributes_geometricMean action library)⟩
  · exact ⟨rfl, rfl, fun action => attributes_ofPosition (attributes_extremeIndex action _)⟩
  · exact ⟨rfl, rfl, fun action => attributes_ofPosition (attributes_extremeIndex action _)⟩

theorem forall₂_parameterizedEntries : List.Forall₂ Entry.Matches (parameterizedEntries library)
    (NumericActions.parameterizedEntries library) := by
  refine .cons ?_ (.cons ?_ .nil)
  · exact ⟨rfl, rfl, fun _ => attributes_ofParameters (nameless_sigmoidOf library)⟩
  · exact ⟨rfl, rfl, fun _ => attributes_ofParameters (nameless_powerOf library)⟩

theorem forall₂_catalogue (library : Elementary) :
    List.Forall₂ Entry.Matches (catalogue library) (NumericActions.catalogue library) :=
  List.rel_append (List.rel_append (List.rel_append forall₂_elementwiseEntries
    forall₂_windowedEntries) forall₂_aggregateEntries) forall₂_parameterizedEntries

theorem exists_mem_of_forall₂ {α β : Type} {R : α → β → Prop} {xs : List α} {ys : List β}
    (h : List.Forall₂ R xs ys) {x : α} (hx : x ∈ xs) : ∃ y ∈ ys, R x y := by
  induction h with
  | nil => cases hx
  | cons hr hrest ih =>
    rcases List.mem_cons.mp hx with rfl | hx
    · exact ⟨_, List.mem_cons_self, hr⟩
    · obtain ⟨y, hy, hxy⟩ := ih hx
      exact ⟨y, List.mem_cons_of_mem _ hy, hxy⟩

theorem Entry.exists_matches {entry : Entry} (h : entry ∈ catalogue library) :
    ∃ plain ∈ NumericActions.catalogue library, entry.Matches plain :=
  exists_mem_of_forall₂ (forall₂_catalogue library) h

end Attributed

end NumericActions
