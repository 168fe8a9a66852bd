import Arbor.Proofs.Json.Value

/-! A value is refused at the first part that is nested beyond what readers accept. -/
namespace Arbor.JsonValue

def Refused (layout : Layout) (v : JsonValue) : Prop :=
  ∀ (fuel depth level : Nat) (rest : Bytes),
    2 * (printOnto layout level rest v).length ≤ fuel + 2 * rest.length →
    depth ≤ maxNesting → maxNesting < depth + v.nesting → Numeral.Ends rest →
    parseValue .text fuel depth (printOnto layout level rest v) = none

section Items

variable {layout : Layout} {keep : Keep} {fuel depth level : Nat} {gap rest : Bytes}

theorem parseItems_eq_none {b : Bytes} (hvalue : parseValue keep fuel depth b = none) :
    parseItems keep (fuel + 1) depth b = none := by
  simp only [parseItems, hvalue, Option.bind_eq_bind, Option.bind_none]

theorem parseItems_more_eq_none {v : JsonValue} {b tail more : Bytes}
    (hvalue : parseValue keep fuel depth b = some (v, tail)) (htail : skipBlank tail = 44 :: more)
    (hmore : parseItems keep fuel depth more = none) :
    parseItems keep (fuel + 1) depth b = none := by
  simp only [parseItems, hvalue, Option.bind_eq_bind, Option.bind_some, htail, hmore,
    Option.bind_none]

/-- Items of which one is nested too deeply are refused. -/
theorem parseItems_refused (hlayout : layout.IsBlank) (hgap : Blank gap) {v : JsonValue}
    {vs : List JsonValue} (hwritable : ∀ w ∈ v :: vs, Writable w)
    (hrefused : ∀ w ∈ v :: vs, Refused layout w)
    (hfuel : 2 * (printOnto layout level
      (printItemsOnto layout level (gap ++ 93 :: rest) vs) v).length ≤ fuel + 1 + 2 * rest.length)
    (hdepth : depth ≤ maxNesting) (hdeep : maxNesting < depth + nestingAll (v :: vs)) :
    parseItems .text fuel depth
      (printOnto layout level (printItemsOnto layout level (gap ++ 93 :: rest) vs) v) = none := by
  induction vs generalizing v fuel with
  | nil =>
      cases fuel with
      | zero => rfl
      | succ fuel =>
          have hlength : (gap ++ 93 :: rest).length = gap.length + (rest.length + 1) :=
            List.length_append
          rw [nestingAll, nestingAll, Nat.max_zero] at hdeep
          rw [printItemsOnto] at hfuel ⊢
          exact parseItems_eq_none (hrefused v List.mem_cons_self fuel depth level _ (by omega)
            hdepth hdeep (ends_append hgap (ends_mark (.inr (.inl rfl)) rest)))
  | cons w vs ih =>
      have hitems := length_le_printItemsOnto (fun u hu => length_lt_printOnto layout
        (hwritable u (List.mem_cons_of_mem v (List.mem_cons_of_mem w hu)))) level
          (gap ++ 93 :: rest)
      have hlength := length_lt_printOnto layout
        (hwritable w (List.mem_cons_of_mem v List.mem_cons_self)) level
        (printItemsOnto layout level (gap ++ 93 :: rest) vs)
      have hlength' := length_lt_printOnto layout (hwritable v List.mem_cons_self) level
        (printItemsOnto layout level (gap ++ 93 :: rest) (w :: vs))
      have hends : Numeral.Ends (printItemsOnto layout level (gap ++ 93 :: rest) (w :: vs)) :=
        ends_printItemsOnto hgap (w :: vs)
      rw [List.length_append, List.length_cons] at hitems
      rw [printItemsOnto] at hfuel hlength' hends ⊢
      rw [List.length_cons, List.length_append] at hlength'
      rw [nestingAll] at hdeep
      cases fuel with
      | zero => rfl
      | succ fuel =>
          by_cases hfits : depth + v.nesting ≤ maxNesting
          -- the first value is read back, so one of the others is too deep
          · have hvalue := readBack hlayout (hwritable v List.mem_cons_self) fuel depth level _
              (by rw [List.length_cons, List.length_append]; omega) hfits hends
            refine parseItems_more_eq_none hvalue (skipBlank_cons rfl _) ?_
            rw [parseItems_append (hlayout.newline level)]
            exact ih (fun u hu => hwritable u (List.mem_cons_of_mem v hu))
              (fun u hu => hrefused u (List.mem_cons_of_mem v hu)) (by omega) (by omega)
          · exact parseItems_eq_none (hrefused v List.mem_cons_self fuel depth level _
              (by rw [List.length_cons, List.length_append]; omega) hdepth (by omega) hends)

end Items

section Members

variable {layout : Layout} {keep : Keep} {fuel depth level : Nat} {gap rest : Bytes}

theorem parseMembers_eq_none {k more : Bytes} (hk : Utf8.isValid k = true)
    (hvalue : parseValue keep fuel depth more = none) :
    parseMembers keep (fuel + 1) depth (quote k ++ (layout.colon ++ more)) = none := by
  obtain ⟨body, after, blank, l, hquote, hbody, -, hcolon, hblank⟩ := exists_key hk layout more
  simp only [parseMembers, hquote, hbody, hcolon, parseValue_append hblank, hvalue,
    Option.bind_eq_bind, Option.bind_some, Option.bind_none]

theorem parseMembers_more_eq_none {k tail more next : Bytes} {v : JsonValue}
    (hk : Utf8.isValid k = true) (hvalue : parseValue keep fuel depth more = some (v, tail))
    (htail : skipBlank tail = 44 :: next) (hmore : parseMembers keep fuel depth next = none) :
    parseMembers keep (fuel + 1) depth (quote k ++ (layout.colon ++ more)) = none := by
  obtain ⟨body, after, blank, l, hquote, hbody, -, hcolon, hblank⟩ := exists_key hk layout more
  simp only [parseMembers, hquote, hbody, hcolon, parseValue_append hblank, hvalue, htail, hmore,
    Option.bind_eq_bind, Option.bind_some, Option.bind_none]

theorem parseMembers_refused (hlayout : layout.IsBlank) (hgap : Blank gap) {k : Bytes}
    {v : JsonValue} {ms : List Member} (hkeys : ∀ m ∈ (k, v) :: ms, Utf8.isValid m.1 = true)
    (hwritable : ∀ m ∈ (k, v) :: ms, Writable m.2)
    (hrefused : ∀ m ∈ (k, v) :: ms, Refused layout m.2)
    (hfuel : 2 * (printOnto layout level
      (printMembersOnto layout level (gap ++ 125 :: rest) ms) v).length ≤ fuel + 1 + 2 * rest.length)
    (hdepth : depth ≤ maxNesting) (hdeep : maxNesting < depth + nestingMembers ((k, v) :: ms)) :
    parseMembers .text fuel depth (quote k ++ (layout.colon ++ printOnto layout level
      (printMembersOnto layout level (gap ++ 125 :: rest) ms) v)) = none := by
  have hkey : Utf8.isValid k = true := hkeys (k, v) List.mem_cons_self
  induction ms generalizing k v fuel with
  | nil =>
      cases fuel with
      | zero => rfl
      | succ fuel =>
          have hlength : (gap ++ 125 :: rest).length = gap.length + (rest.length + 1) :=
            List.length_append
          rw [nestingMembers, nestingMembers, Nat.max_zero] at hdeep
          rw [printMembersOnto] at hfuel ⊢
          exact parseMembers_eq_none hkey (hrefused (k, v) List.mem_cons_self fuel depth level _
            (by dsimp only; omega) hdepth hdeep
            (ends_append hgap (ends_mark (.inr (.inr rfl)) rest)))
  | cons m ms ih =>
      obtain ⟨j, w⟩ := m
      have hmembers := length_le_printMembersOnto (fun u hu => length_lt_printOnto layout
        (hwritable u (List.mem_cons_of_mem _ (List.mem_cons_of_mem _ hu)))) level
        (gap ++ 125 :: rest)
      have hlength := length_lt_printOnto layout
        (hwritable (j, w) (List.mem_cons_of_mem _ List.mem_cons_self)) level
        (printMembersOnto layout level (gap ++ 125 :: rest) ms)
      have hlength' := length_lt_printOnto layout (hwritable (k, v) List.mem_cons_self) level
        (printMembersOnto layout level (gap ++ 125 :: rest) ((j, w) :: ms))
      have hends : Numeral.Ends
          (printMembersOnto layout level (gap ++ 125 :: rest) ((j, w) :: ms)) :=
        ends_printMembersOnto hgap ((j, w) :: ms)
      dsimp only at hlength hlength'
      rw [List.length_append, List.length_cons] at hmembers
      rw [printMembersOnto] at hfuel hlength' hends ⊢
      rw [List.length_cons, List.length_append] at hlength'
      rw [nestingMembers] at hdeep
      cases fuel with
      | zero => rfl
      | succ fuel =>
          by_cases hfits : depth + v.nesting ≤ maxNesting
          · have hvalue := readBack hlayout (hwritable (k, v) List.mem_cons_self) fuel depth level _
              (by rw [List.length_cons, List.length_append]; dsimp only; omega) hfits hends
            refine parseMembers_more_eq_none hkey hvalue (skipBlank_cons rfl _) ?_
            rw [List.append_assoc, List.append_assoc, parseMembers_append (hlayout.newline level)]
            exact ih (fun u hu => hkeys u (List.mem_cons_of_mem _ hu))
              (fun u hu => hwritable u (List.mem_cons_of_mem _ hu))
              (fun u hu => hrefused u (List.mem_cons_of_mem _ hu)) (by omega) (by omega)
              (hkeys (j, w) (List.mem_cons_of_mem _ List.mem_cons_self))
          · exact parseMembers_eq_none hkey (hrefused (k, v) List.mem_cons_self fuel depth level _
              (by rw [List.length_cons, List.length_append]; dsimp only; omega) hdepth
              (by dsimp only; omega) hends)

end Members

section Values

variable {layout : Layout} {keep : Keep} {fuel depth : Nat}

/-- At the last level an array or an object is refused whatever is in it. -/
theorem parseValue_bracket {c : UInt8} (hc : c = 91 ∨ c = 123) (hdepth : maxNesting ≤ depth)
    (b : Bytes) : parseValue keep fuel depth (c :: b) = none := by
  cases fuel with
  | zero => rfl
  | succ fuel =>
      rcases hc with rfl | rfl
      · rw [parseValue, skipBlank_cons rfl]
        exact if_pos hdepth
      · rw [parseValue, skipBlank_cons rfl]
        exact if_pos hdepth

theorem Refused.array (hlayout : layout.IsBlank) {vs : List JsonValue}
    (hvs : ∀ v ∈ vs, Writable v) (hrefused : ∀ v ∈ vs, Refused layout v) :
    Refused layout (.array vs) := by
  intro fuel depth level rest hfuel hdepth hdeep _
  rw [nesting] at hdeep
  rcases Nat.lt_or_ge depth maxNesting with hlt | hge
  · cases vs with
    | nil =>
        rw [nestingAll] at hdeep
        omega
    | cons v vs =>
        have hv := hvs v List.mem_cons_self
        rw [printOnto] at hfuel ⊢
        rw [List.length_cons, List.length_append] at hfuel
        cases fuel with
        | zero => rfl
        | succ fuel =>
            rw [parseValue_array hlt (skipBlank_newline_printOnto hlayout hv ..)
                (head?_printOnto_ne hv _ _),
              parseItems_refused hlayout (hlayout.newline level) hvs hrefused (by omega) hlt
                (by omega)]
            rfl
  · cases vs with
    | nil => exact parseValue_bracket (.inl rfl) hge _
    | cons v vs => exact parseValue_bracket (.inl rfl) hge _

theorem Refused.object (hlayout : layout.IsBlank) {ms : List Member}
    (hkeys : ∀ m ∈ ms, Utf8.isValid m.1 = true) (hms : ∀ m ∈ ms, Writable m.2)
    (hrefused : ∀ m ∈ ms, Refused layout m.2) : Refused layout (.object ms) := by
  intro fuel depth level rest hfuel hdepth hdeep _
  rw [nesting] at hdeep
  rcases Nat.lt_or_ge depth maxNesting with hlt | hge
  · cases ms with
    | nil =>
        rw [nestingMembers] at hdeep
        omega
    | cons m ms =>
        obtain ⟨k, v⟩ := m
        rw [printOnto] at hfuel ⊢
        rw [List.length_cons, List.length_append] at hfuel
        rw [List.append_assoc, List.append_assoc]
        cases fuel with
        | zero => rfl
        | succ fuel =>
            rw [parseValue_object hlt (skipBlank_newline_quote hlayout ..) (by simp [quote]),
              parseMembers_refused hlayout (hlayout.newline level) hkeys hms hrefused (by omega) hlt
                (by omega)]
            rfl
  · cases ms with
    | nil => exact parseValue_bracket (.inr rfl) hge _
    | cons m ms => exact parseValue_bracket (.inr rfl) hge _

/-- A value that can be written is refused where it is nested too deeply. -/
theorem refused (hlayout : layout.IsBlank) {v : JsonValue} (hv : Writable v) :
    Refused layout v := by
  -- only arrays and objects are nested at all
  have hflat : ∀ w : JsonValue, w.nesting = 0 → Refused layout w := by
    intro w hw fuel depth level rest _ hdepth hdeep
    omega
  induction hv with
  | null => exact hflat _ rfl
  | bool b => exact hflat _ rfl
  | number htext => exact hflat _ rfl
  | string htext => exact hflat _ rfl
  | array hvs ih => exact .array hlayout hvs ih
  | object hkeys hms ih => exact .object hlayout hkeys hms ih

/-- The text of a value is read exactly if the value is not nested too deeply. -/
theorem parse?_print_eq (hlayout : layout.IsBlank) {v : JsonValue} (hv : Writable v) {gap : Bytes}
    (hgap : Blank gap) :
    parse? (printOnto layout 0 gap v) = if v.nesting ≤ maxNesting then some v else none := by
  split
  next hnesting => exact parse?_print hlayout hv hnesting hgap
  next hnesting =>
    have hvalue := refused hlayout hv (2 * (printOnto layout 0 gap v).length + 2) 0 0 gap
      (by omega) (Nat.zero_le _) (by omega) (ends_blank hgap)
    rw [parse?, parseWith?, hvalue]

end Values

end Arbor.JsonValue
