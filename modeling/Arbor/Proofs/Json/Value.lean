import Arbor.Proofs.Json.Text
import Arbor.Proofs.Number.Numeral

/-! A value whose texts are UTF-8 is read back from its layout, in one line or in many. -/
namespace Arbor.JsonValue

/-- A value that can be written so that it is read back. -/
inductive Writable : JsonValue → Prop
  | null : Writable .null
  | bool (b : Bool) : Writable (.bool b)
  | number {text : Bytes} : text.IsNumeral → Writable (.number text)
  | string {text : Bytes} : Utf8.isValid text = true → Writable (.string text)
  | array {vs : List JsonValue} : (∀ v ∈ vs, Writable v) → Writable (.array vs)
  | object {ms : List Member} : (∀ m ∈ ms, Utf8.isValid m.1 = true) →
      (∀ m ∈ ms, Writable m.2) → Writable (.object ms)

section Blanks

def isBlankByte (c : UInt8) : Bool := c = 32 || c = 9 || c = 10 || c = 13

def Blank (b : Bytes) : Prop := ∀ c ∈ b, isBlankByte c = true

theorem skipBlank_append {gap : Bytes} (hgap : Blank gap) (b : Bytes) :
    skipBlank (gap ++ b) = skipBlank b :=
  List.dropWhile_append_of_pos hgap

theorem skipBlank_cons {c : UInt8} (hc : isBlankByte c = false) (b : Bytes) :
    skipBlank (c :: b) = c :: b :=
  List.dropWhile_cons_of_neg (by rw [← isBlankByte, hc]; exact Bool.false_ne_true)

theorem parseValue_append {gap : Bytes} (hgap : Blank gap) (keep : Keep) (n level : Nat)
    (b : Bytes) : parseValue keep n level (gap ++ b) = parseValue keep n level b := by
  cases n with
  | zero => rfl
  | succ n => rw [parseValue, parseValue, skipBlank_append hgap]

theorem parseItems_append {gap : Bytes} (hgap : Blank gap) (keep : Keep) (n level : Nat)
    (b : Bytes) : parseItems keep n level (gap ++ b) = parseItems keep n level b := by
  cases n with
  | zero => rfl
  | succ n => rw [parseItems, parseItems, parseValue_append hgap]

theorem parseMembers_append {gap : Bytes} (hgap : Blank gap) (keep : Keep) (n level : Nat)
    (b : Bytes) : parseMembers keep n level (gap ++ b) = parseMembers keep n level b := by
  cases n with
  | zero => rfl
  | succ n => rw [parseMembers, parseMembers, skipBlank_append hgap]

def Layout.IsBlank : Layout → Prop
  | .compact => True
  | .indented lead step => Blank lead ∧ Blank step

theorem Layout.IsBlank.newline {layout : Layout} (h : layout.IsBlank) (level : Nat) :
    Blank (layout.newline level) := by
  cases layout with
  | compact =>
      intro c hc
      cases hc
  | indented lead step =>
      obtain ⟨hlead, hstep⟩ := h
      intro c hc
      rcases List.mem_cons.mp hc with rfl | hc
      · rfl
      rcases List.mem_append.mp hc with hc | hc
      · exact hlead c hc
      · obtain ⟨s, hs, hc⟩ := List.mem_flatten.mp hc
        rw [List.eq_of_mem_replicate hs] at hc
        exact hstep c hc

theorem Layout.exists_colon (layout : Layout) :
    ∃ gap, layout.colon = 58 :: gap ∧ Blank gap := by
  cases layout with
  | compact =>
      refine ⟨[], rfl, ?_⟩
      intro c hc
      cases hc
  | indented lead step =>
      refine ⟨[32], rfl, ?_⟩
      intro c hc
      rw [List.mem_singleton.mp hc]
      rfl

end Blanks

section Ends

theorem ends_append {gap b : Bytes} (hgap : Blank gap) (hb : Numeral.Ends b) :
    Numeral.Ends (gap ++ b) := by
  cases gap with
  | nil => exact hb
  | cons c gap =>
      intro c' hc'
      cases hc'
      have hc := hgap c List.mem_cons_self
      simp only [isBlankByte, Bool.or_eq_true, decide_eq_true_eq] at hc
      rcases hc with ((rfl | rfl) | rfl) | rfl <;> decide

theorem ends_blank {gap : Bytes} (hgap : Blank gap) : Numeral.Ends gap := by
  have hnil : Numeral.Ends [] := by
    intro c hc
    cases hc
  rw [← List.append_nil gap]
  exact ends_append hgap hnil

/-- A number ends before the mark between items and before a closing bracket. -/
theorem ends_mark {c : UInt8} (hc : c = 44 ∨ c = 93 ∨ c = 125) (b : Bytes) :
    Numeral.Ends (c :: b) := by
  intro c' hc'
  cases hc'
  rcases hc with rfl | rfl | rfl <;> decide

end Ends

section Start

/-- What a numeral begins with begins no other value. -/
theorem numeral_start {c : UInt8} (hc : c = 45 ∨ Bytes.isDigit c = true) :
    isBlankByte c = false ∧ c ≠ 34 ∧ c ≠ 91 ∧ c ≠ 93 ∧ c ≠ 123 ∧ c ≠ 110 ∧ c ≠ 116 ∧ c ≠ 102 := by
  rcases hc with rfl | hdigit
  · decide
  · obtain ⟨hlow, hhigh⟩ := Bytes.isDigit_iff.mp hdigit
    simp only [isBlankByte, Bool.or_eq_false_iff, decide_eq_false_iff_not, ne_eq,
      ← UInt8.toNat_inj, UInt8.reduceToNat]
    omega

theorem exists_printOnto {v : JsonValue} (hv : Writable v) (layout : Layout) (level : Nat)
    (rest : Bytes) :
    ∃ c cs, printOnto layout level rest v = c :: cs ∧ isBlankByte c = false ∧ c ≠ 93 := by
  cases hv with
  | null => exact ⟨_, _, rfl, rfl, by decide⟩
  | bool b => cases b <;> exact ⟨_, _, rfl, rfl, by decide⟩
  | number htext =>
      obtain ⟨n, rfl⟩ := htext
      obtain ⟨c, cs, hcs, hstart⟩ := n.exists_text_eq
      obtain ⟨hblank, -, -, hbracket, -⟩ := numeral_start hstart
      refine ⟨c, cs ++ rest, ?_, hblank, hbracket⟩
      rw [printOnto, hcs, List.cons_append]
  | string htext => exact ⟨_, _, rfl, rfl, by decide⟩
  | @array vs hvs => cases vs <;> exact ⟨_, _, rfl, rfl, by decide⟩
  | @object ms hkeys hms => cases ms <;> exact ⟨_, _, rfl, rfl, by decide⟩

theorem skipBlank_newline_printOnto {layout : Layout} (hlayout : layout.IsBlank) {v : JsonValue}
    (hv : Writable v) (line level : Nat) (rest : Bytes) :
    skipBlank (layout.newline line ++ printOnto layout level rest v) =
      printOnto layout level rest v := by
  obtain ⟨c, cs, hcs, hblank, -⟩ := exists_printOnto hv layout level rest
  rw [skipBlank_append (hlayout.newline line), hcs, skipBlank_cons hblank]

theorem skipBlank_newline_quote {layout : Layout} (hlayout : layout.IsBlank) (line : Nat)
    (k more : Bytes) :
    skipBlank (layout.newline line ++ (quote k ++ more)) = quote k ++ more := by
  rw [skipBlank_append (hlayout.newline line), quote, List.cons_append, skipBlank_cons rfl]

theorem head?_printOnto_ne {layout : Layout} {v : JsonValue} (hv : Writable v) (level : Nat)
    (rest : Bytes) : (printOnto layout level rest v).head? ≠ some 93 := by
  obtain ⟨c, cs, hcs, -, hbracket⟩ := exists_printOnto hv layout level rest
  rw [hcs]
  simpa using hbracket

end Start

section Appending

mutual

/-- A value is laid out the same way whatever follows it. -/
theorem printOnto_append (layout : Layout) (level : Nat) (rest more : Bytes) :
    ∀ v : JsonValue, printOnto layout level rest v ++ more = printOnto layout level (rest ++ more) v
  | null => List.append_assoc _ _ _
  | bool true => List.append_assoc _ _ _
  | bool false => List.append_assoc _ _ _
  | number _ => List.append_assoc _ _ _
  | string _ => List.append_assoc _ _ _
  | array [] => rfl
  | array (v :: vs) => by
      simp only [printOnto, List.cons_append, List.append_assoc, printOnto_append layout _ _ more v,
        printItemsOnto_append layout _ _ more vs]
  | object [] => rfl
  | object ((k, v) :: ms) => by
      simp only [printOnto, List.cons_append, List.append_assoc, printOnto_append layout _ _ more v,
        printMembersOnto_append layout _ _ more ms]

theorem printItemsOnto_append (layout : Layout) (level : Nat) (rest more : Bytes) :
    ∀ vs : List JsonValue,
      printItemsOnto layout level rest vs ++ more = printItemsOnto layout level (rest ++ more) vs
  | [] => rfl
  | v :: vs => by
      simp only [printItemsOnto, List.cons_append, List.append_assoc,
        printOnto_append layout _ _ more v, printItemsOnto_append layout _ _ more vs]

theorem printMembersOnto_append (layout : Layout) (level : Nat) (rest more : Bytes) :
    ∀ ms : List Member, printMembersOnto layout level rest ms ++ more =
      printMembersOnto layout level (rest ++ more) ms
  | [] => rfl
  | (k, v) :: ms => by
      simp only [printMembersOnto, List.cons_append, List.append_assoc,
        printOnto_append layout _ _ more v, printMembersOnto_append layout _ _ more ms]

end

end Appending

section Lengths

variable {layout : Layout}

theorem length_le_printItemsOnto {vs : List JsonValue}
    (hvs : ∀ v ∈ vs, ∀ level rest, rest.length < (printOnto layout level rest v).length)
    (level : Nat) (rest : Bytes) : rest.length ≤ (printItemsOnto layout level rest vs).length := by
  induction vs with
  | nil => exact Nat.le_refl _
  | cons v vs ih =>
      have hv := hvs v List.mem_cons_self level (printItemsOnto layout level rest vs)
      have hrest := ih fun w hw => hvs w (List.mem_cons_of_mem v hw)
      rw [printItemsOnto, List.length_cons, List.length_append]
      omega

theorem length_le_printMembersOnto {ms : List Member}
    (hms : ∀ m ∈ ms, ∀ level rest, rest.length < (printOnto layout level rest m.2).length)
    (level : Nat) (rest : Bytes) :
    rest.length ≤ (printMembersOnto layout level rest ms).length := by
  induction ms with
  | nil => exact Nat.le_refl _
  | cons m ms ih =>
      obtain ⟨k, v⟩ := m
      have hv := hms (k, v) List.mem_cons_self level (printMembersOnto layout level rest ms)
      have hrest := ih fun w hw => hms w (List.mem_cons_of_mem _ hw)
      dsimp only at hv
      rw [printMembersOnto, List.length_cons, List.length_append]
      omega

theorem length_lt_printOnto (layout : Layout) {v : JsonValue} (hv : Writable v) (level : Nat)
    (rest : Bytes) :
    rest.length < (printOnto layout level rest v).length := by
  induction hv generalizing level rest with
  | null =>
      rw [printOnto, List.length_append]
      exact Nat.lt_add_of_pos_left (by decide)
  | bool b =>
      cases b <;> (rw [printOnto, List.length_append]; exact Nat.lt_add_of_pos_left (by decide))
  | number htext =>
      obtain ⟨n, rfl⟩ := htext
      obtain ⟨c, cs, hcs, -⟩ := n.exists_text_eq
      rw [printOnto, hcs, List.length_append, List.length_cons]
      omega
  | string htext =>
      rw [printOnto, quote, List.length_append, List.length_cons]
      omega
  | @array vs hvs ih =>
      cases vs with
      | nil =>
          rw [printOnto, List.length_cons, List.length_cons]
          omega
      | cons v vs =>
          have hv := ih v List.mem_cons_self (level + 1)
            (printItemsOnto layout (level + 1) (layout.newline level ++ 93 :: rest) vs)
          have hrest := length_le_printItemsOnto (fun w hw => ih w (List.mem_cons_of_mem v hw))
            (level + 1) (layout.newline level ++ 93 :: rest)
          rw [List.length_append, List.length_cons] at hrest
          rw [printOnto, List.length_cons, List.length_append]
          omega
  | @object ms hkeys hms ih =>
      cases ms with
      | nil =>
          rw [printOnto, List.length_cons, List.length_cons]
          omega
      | cons m ms =>
          obtain ⟨k, v⟩ := m
          have hv := ih (k, v) List.mem_cons_self (level + 1)
            (printMembersOnto layout (level + 1) (layout.newline level ++ 125 :: rest) ms)
          have hrest := length_le_printMembersOnto (fun w hw => ih w (List.mem_cons_of_mem _ hw))
            (level + 1) (layout.newline level ++ 125 :: rest)
          rw [List.length_append, List.length_cons] at hrest
          dsimp only at hv
          rw [printOnto, List.length_cons, List.length_append]
          omega

end Lengths

/-- A value is read back from its layout: with fuel for two steps a byte, at a level from which it
is not nested too deeply. -/
def ReadBack (layout : Layout) (v : JsonValue) : Prop :=
  ∀ (fuel depth level : Nat) (rest : Bytes),
    2 * (printOnto layout level rest v).length ≤ fuel + 2 * rest.length →
    depth + v.nesting ≤ maxNesting → Numeral.Ends rest →
    parseValue .text fuel depth (printOnto layout level rest v) = some (v, rest)

section Items

variable {layout : Layout} {keep : Keep} {fuel depth level : Nat} {gap rest : Bytes}

theorem parseItems_last {v : JsonValue} {b tail : Bytes}
    (hvalue : parseValue keep fuel depth b = some (v, tail)) (htail : skipBlank tail = 93 :: rest) :
    parseItems keep (fuel + 1) depth b = some ([v], rest) := by
  simp only [parseItems, hvalue, Option.bind_eq_bind, Option.bind_some, htail, Option.pure_def]

theorem parseItems_more {v : JsonValue} {vs : List JsonValue} {b tail more : Bytes}
    (hvalue : parseValue keep fuel depth b = some (v, tail)) (htail : skipBlank tail = 44 :: more)
    (hmore : parseItems keep fuel depth more = some (vs, rest)) :
    parseItems keep (fuel + 1) depth b = some (v :: vs, rest) := by
  simp only [parseItems, hvalue, Option.bind_eq_bind, Option.bind_some, htail, hmore,
    Option.pure_def]

theorem ends_printItemsOnto (hgap : Blank gap) (vs : List JsonValue) :
    Numeral.Ends (printItemsOnto layout level (gap ++ 93 :: rest) vs) := by
  cases vs with
  | nil => exact ends_append hgap (ends_mark (.inr (.inl rfl)) rest)
  | cons v vs => exact ends_mark (.inl rfl) _

/-- Items that are read back are read back as a list, up to the bracket. -/
theorem parseItems_print (hlayout : layout.IsBlank) (hgap : Blank gap) {v : JsonValue}
    {vs : List JsonValue} (hwritable : ∀ w ∈ v :: vs, Writable w)
    (hread : ∀ w ∈ v :: vs, ReadBack layout w)
    (hfuel : 2 * (printOnto layout level
      (printItemsOnto layout level (gap ++ 93 :: rest) vs) v).length ≤ fuel + 1 + 2 * rest.length)
    (hdepth : depth + nestingAll (v :: vs) ≤ maxNesting) :
    parseItems .text fuel depth
      (printOnto layout level (printItemsOnto layout level (gap ++ 93 :: rest) vs) v) =
      some (v :: vs, rest) := by
  induction vs generalizing v fuel with
  | nil =>
      have hlength := length_lt_printOnto layout (hwritable v List.mem_cons_self) level
        (gap ++ 93 :: rest)
      rw [List.length_append, List.length_cons] at hlength
      rw [printItemsOnto] at hfuel ⊢
      rw [nestingAll] at hdepth
      cases fuel with
      | zero => omega
      | succ fuel =>
          have hvalue := hread v List.mem_cons_self fuel depth level (gap ++ 93 :: rest)
            (by rw [List.length_append, List.length_cons]; omega) (by omega)
            (ends_append hgap (ends_mark (.inr (.inl rfl)) rest))
          refine parseItems_last hvalue ?_
          rw [skipBlank_append hgap, skipBlank_cons rfl]
  | cons w vs ih =>
      have hitems := length_le_printItemsOnto (fun u hu => length_lt_printOnto layout
        (hwritable u (List.mem_cons_of_mem v (List.mem_cons_of_mem w hu)))) level (gap ++ 93 :: rest)
      have hlength := length_lt_printOnto layout
        (hwritable w (List.mem_cons_of_mem v List.mem_cons_self)) level
        (printItemsOnto layout level (gap ++ 93 :: rest) vs)
      have hlength' := length_lt_printOnto layout (hwritable v List.mem_cons_self) level
        (printItemsOnto layout level (gap ++ 93 :: rest) (w :: vs))
      rw [List.length_append, List.length_cons] at hitems
      rw [printItemsOnto] at hfuel hlength' ⊢
      rw [List.length_cons, List.length_append] at hlength'
      rw [nestingAll] at hdepth
      -- the value is shorter than what is printed from it on, so a step of fuel is left over
      cases fuel with
      | zero => omega
      | succ fuel =>
          have hvalue := hread v List.mem_cons_self fuel depth level
            (printItemsOnto layout level (gap ++ 93 :: rest) (w :: vs))
            (by rw [printItemsOnto, List.length_cons, List.length_append]; omega) (by omega)
            (ends_printItemsOnto hgap (w :: vs))
          refine parseItems_more hvalue (skipBlank_cons rfl _) ?_
          rw [parseItems_append (hlayout.newline level)]
          exact ih (fun u hu => hwritable u (List.mem_cons_of_mem v hu))
            (fun u hu => hread u (List.mem_cons_of_mem v hu)) (by omega) (by omega)

end Items

section Members

variable {layout : Layout} {keep : Keep} {fuel depth level : Nat} {gap rest : Bytes}

theorem exists_key {k : Bytes} (hk : Utf8.isValid k = true) (layout : Layout) (more : Bytes) :
    ∃ body after blank l, skipBlank (quote k ++ (layout.colon ++ more)) = 34 :: body ∧
      stringBody body = some (l, after) ∧ Keep.text l = k ∧
      skipBlank after = 58 :: (blank ++ more) ∧ Blank blank := by
  obtain ⟨blank, hcolon, hblank⟩ := layout.exists_colon
  obtain ⟨l, hquote, hbody, htext⟩ := stringBody_quote hk (layout.colon ++ more)
  refine ⟨_, _, blank, l, ?_, hbody, htext, ?_, hblank⟩
  · rw [hquote, skipBlank_cons rfl]
  · rw [hcolon, List.cons_append, skipBlank_cons rfl]

theorem parseMembers_last {k tail more : Bytes} {v : JsonValue} (hk : Utf8.isValid k = true)
    (hvalue : parseValue keep fuel depth more = some (v, tail))
    (htail : skipBlank tail = 125 :: rest) :
    parseMembers keep (fuel + 1) depth (quote k ++ (layout.colon ++ more)) =
      some ([(k, v)], rest) := by
  obtain ⟨body, after, blank, l, hquote, hbody, htext, hcolon, hblank⟩ := exists_key hk layout more
  simp only [parseMembers, hquote, hbody, hcolon, parseValue_append hblank, hvalue, htail, htext,
    Option.bind_eq_bind, Option.bind_some, Option.pure_def]

theorem parseMembers_more {k tail more next : Bytes} {v : JsonValue} {ms : List Member}
    (hk : Utf8.isValid k = true) (hvalue : parseValue keep fuel depth more = some (v, tail))
    (htail : skipBlank tail = 44 :: next)
    (hmore : parseMembers keep fuel depth next = some (ms, rest)) :
    parseMembers keep (fuel + 1) depth (quote k ++ (layout.colon ++ more)) =
      some ((k, v) :: ms, rest) := by
  obtain ⟨body, after, blank, l, hquote, hbody, htext, hcolon, hblank⟩ := exists_key hk layout more
  simp only [parseMembers, hquote, hbody, hcolon, parseValue_append hblank, hvalue, htail, hmore,
    htext, Option.bind_eq_bind, Option.bind_some, Option.pure_def]

theorem ends_printMembersOnto (hgap : Blank gap) (ms : List Member) :
    Numeral.Ends (printMembersOnto layout level (gap ++ 125 :: rest) ms) := by
  cases ms with
  | nil => exact ends_append hgap (ends_mark (.inr (.inr rfl)) rest)
  | cons m ms => exact ends_mark (.inl rfl) _

theorem parseMembers_print (hlayout : layout.IsBlank) (hgap : Blank gap) {k : Bytes}
    {v : JsonValue} {ms : List Member} (hkeys : ∀ m ∈ (k, v) :: ms, Utf8.isValid m.1 = true)
    (hwritable : ∀ m ∈ (k, v) :: ms, Writable m.2)
    (hread : ∀ m ∈ (k, v) :: ms, ReadBack layout m.2)
    (hfuel : 2 * (printOnto layout level
      (printMembersOnto layout level (gap ++ 125 :: rest) ms) v).length ≤ fuel + 1 + 2 * rest.length)
    (hdepth : depth + nestingMembers ((k, v) :: ms) ≤ maxNesting) :
    parseMembers .text fuel depth (quote k ++ (layout.colon ++ printOnto layout level
      (printMembersOnto layout level (gap ++ 125 :: rest) ms) v)) = some ((k, v) :: ms, rest) := by
  have hkey : Utf8.isValid k = true := hkeys (k, v) List.mem_cons_self
  induction ms generalizing k v fuel with
  | nil =>
      have hlength := length_lt_printOnto layout (hwritable (k, v) List.mem_cons_self)
        level (gap ++ 125 :: rest)
      dsimp only at hlength
      rw [List.length_append, List.length_cons] at hlength
      rw [printMembersOnto] at hfuel ⊢
      rw [nestingMembers] at hdepth
      cases fuel with
      | zero => omega
      | succ fuel =>
          have hvalue := hread (k, v) List.mem_cons_self fuel depth level (gap ++ 125 :: rest)
            (by rw [List.length_append, List.length_cons]; dsimp only; omega)
            (by dsimp only; omega) (ends_append hgap (ends_mark (.inr (.inr rfl)) rest))
          refine parseMembers_last hkey hvalue ?_
          rw [skipBlank_append hgap, skipBlank_cons rfl]
  | cons m ms ih =>
      obtain ⟨j, w⟩ := m
      have hmembers := length_le_printMembersOnto (fun u hu => length_lt_printOnto layout
        (hwritable u (List.mem_cons_of_mem _ (List.mem_cons_of_mem _ hu)))) level
        (gap ++ 125 :: rest)
      have hlength := length_lt_printOnto layout
        (hwritable (j, w) (List.mem_cons_of_mem _ List.mem_cons_self)) level
        (printMembersOnto layout level (gap ++ 125 :: rest) ms)
      have hlength' := length_lt_printOnto layout
        (hwritable (k, v) List.mem_cons_self) level
        (printMembersOnto layout level (gap ++ 125 :: rest) ((j, w) :: ms))
      dsimp only at hlength hlength'
      rw [List.length_append, List.length_cons] at hmembers
      rw [printMembersOnto] at hfuel hlength' ⊢
      rw [List.length_cons, List.length_append] at hlength'
      rw [nestingMembers] at hdepth
      cases fuel with
      | zero => omega
      | succ fuel =>
          have hvalue := hread (k, v) List.mem_cons_self fuel depth level
            (printMembersOnto layout level (gap ++ 125 :: rest) ((j, w) :: ms))
            (by rw [printMembersOnto, List.length_cons, List.length_append]; dsimp only; omega)
            (by dsimp only; omega) (ends_printMembersOnto hgap ((j, w) :: ms))
          refine parseMembers_more hkey hvalue (skipBlank_cons rfl _) ?_
          rw [List.append_assoc, List.append_assoc, parseMembers_append (hlayout.newline level)]
          exact ih (fun u hu => hkeys u (List.mem_cons_of_mem _ hu))
            (fun u hu => hwritable u (List.mem_cons_of_mem _ hu))
            (fun u hu => hread u (List.mem_cons_of_mem _ hu)) (by omega) (by omega)
            (hkeys (j, w) (List.mem_cons_of_mem _ List.mem_cons_self))

end Members

section Values

variable {layout : Layout} {keep : Keep} {fuel depth : Nat} {b more rest : Bytes}

/-- The first byte of a numeral tells it from all other values. -/
theorem parseValue_number {text : Bytes} (htext : text.IsNumeral) (hrest : Numeral.Ends rest) :
    parseValue keep (fuel + 1) depth (text ++ rest) = some (.number text, rest) := by
  obtain ⟨n, rfl⟩ := htext
  obtain ⟨c, cs, hcs, hstart⟩ := n.exists_text_eq
  obtain ⟨hblank, hquote, hbracket, -, hbrace, hn, ht, hf⟩ := numeral_start hstart
  have hnumber := n.numberText?_text hrest
  have hskip : skipBlank (n.text ++ rest) = n.text ++ rest := by
    rw [hcs, List.cons_append, skipBlank_cons hblank]
  rw [parseValue, hskip]
  split
  next heq => simp [hcs] at heq
  next heq => simp [hcs, hquote] at heq
  next heq => simp [hcs, hbracket] at heq
  next heq => simp [hcs, hbrace] at heq
  next heq => simp [hcs, hn] at heq
  next heq => simp [hcs, ht] at heq
  next heq => simp [hcs, hf] at heq
  next =>
    rw [hnumber]
    rfl

theorem parseValue_string {text : Bytes} (htext : Utf8.isValid text = true) :
    parseValue .text (fuel + 1) depth (quote text ++ rest) = some (.string text, rest) := by
  obtain ⟨l, hquote, hbody, hkeep⟩ := stringBody_quote htext rest
  rw [parseValue, hquote, skipBlank_cons rfl]
  simp only [hbody, Option.map_some, hkeep]

theorem parseValue_array (hdepth : depth < maxNesting) (hmore : skipBlank b = more)
    (hhead : more.head? ≠ some 93) :
    parseValue keep (fuel + 1) depth (91 :: b) =
      (parseItems keep fuel (depth + 1) more).map fun (vs, rest) => (.array vs, rest) := by
  rw [parseValue, skipBlank_cons rfl]
  simp only [Nat.not_le.mpr hdepth, if_false, hmore]
  split
  next => exact absurd rfl hhead
  next => rfl

theorem parseValue_object (hdepth : depth < maxNesting) (hmore : skipBlank b = more)
    (hhead : more.head? ≠ some 125) :
    parseValue keep (fuel + 1) depth (123 :: b) =
      (parseMembers keep fuel (depth + 1) more).map fun (ms, rest) => (.object ms, rest) := by
  rw [parseValue, skipBlank_cons rfl]
  simp only [Nat.not_le.mpr hdepth, if_false, hmore]
  split
  next => exact absurd rfl hhead
  next => rfl

theorem ReadBack.of_succ {v : JsonValue} (hv : Writable v)
    (h : ∀ (fuel depth level : Nat) (rest : Bytes),
      2 * (printOnto layout level rest v).length ≤ fuel + 1 + 2 * rest.length →
      depth + v.nesting ≤ maxNesting → Numeral.Ends rest →
      parseValue .text (fuel + 1) depth (printOnto layout level rest v) = some (v, rest)) :
    ReadBack layout v := by
  intro fuel depth level rest hfuel hdepth hrest
  have hlength := length_lt_printOnto layout hv level rest
  cases fuel with
  | zero => omega
  | succ fuel => exact h fuel depth level rest hfuel hdepth hrest

theorem ReadBack.array (hlayout : layout.IsBlank) {vs : List JsonValue}
    (hvs : ∀ v ∈ vs, Writable v) (hread : ∀ v ∈ vs, ReadBack layout v) :
    ReadBack layout (.array vs) := by
  refine .of_succ (.array hvs) ?_
  intro fuel depth level rest hfuel hdepth _
  rw [nesting] at hdepth
  cases vs with
  | nil =>
      have hlt : ¬ maxNesting ≤ depth := by omega
      rw [printOnto, parseValue, skipBlank_cons rfl]
      simp only [hlt, if_false]
      rw [skipBlank_cons rfl]
      rfl
  | cons v vs =>
      rw [printOnto] at hfuel ⊢
      rw [List.length_cons, List.length_append] at hfuel
      have hv := hvs v List.mem_cons_self
      have hlt : depth < maxNesting := by omega
      rw [parseValue_array hlt (skipBlank_newline_printOnto hlayout hv ..)
          (head?_printOnto_ne hv _ _),
        parseItems_print hlayout (hlayout.newline level) hvs hread (by omega) (by omega)]
      rfl

theorem ReadBack.object (hlayout : layout.IsBlank) {ms : List Member}
    (hkeys : ∀ m ∈ ms, Utf8.isValid m.1 = true) (hms : ∀ m ∈ ms, Writable m.2)
    (hread : ∀ m ∈ ms, ReadBack layout m.2) : ReadBack layout (.object ms) := by
  refine .of_succ (.object hkeys hms) ?_
  intro fuel depth level rest hfuel hdepth _
  rw [nesting] at hdepth
  cases ms with
  | nil =>
      have hlt : ¬ maxNesting ≤ depth := by omega
      rw [printOnto, parseValue, skipBlank_cons rfl]
      simp only [hlt, if_false]
      rw [skipBlank_cons rfl]
      rfl
  | cons m ms =>
      obtain ⟨k, v⟩ := m
      rw [printOnto] at hfuel ⊢
      rw [List.length_cons, List.length_append] at hfuel
      rw [List.append_assoc, List.append_assoc]
      have hlt : depth < maxNesting := by omega
      rw [parseValue_object hlt (skipBlank_newline_quote hlayout ..) (by simp [quote]),
        parseMembers_print hlayout (hlayout.newline level) hkeys hms hread (by omega) (by omega)]
      rfl

/-- A value that can be written is read back. -/
theorem readBack (hlayout : layout.IsBlank) {v : JsonValue} (hv : Writable v) :
    ReadBack layout v := by
  induction hv with
  | null => exact .of_succ .null fun _ _ _ _ _ _ _ => rfl
  | bool b => cases b <;> exact .of_succ (.bool _) fun _ _ _ _ _ _ _ => rfl
  | number htext =>
      refine .of_succ (.number htext) ?_
      intro fuel depth level rest _ _ hrest
      exact parseValue_number htext hrest
  | string htext =>
      refine .of_succ (.string htext) ?_
      intro fuel depth level rest _ _ _
      exact parseValue_string htext
  | array hvs ih => exact .array hlayout hvs ih
  | object hkeys hms ih => exact .object hlayout hkeys hms ih

/-- The text of a value is the value again, whatever blanks follow it. -/
theorem parse?_print (hlayout : layout.IsBlank) {v : JsonValue} (hv : Writable v)
    (hnesting : v.nesting ≤ maxNesting) {gap : Bytes} (hgap : Blank gap) :
    parse? (printOnto layout 0 gap v) = some v := by
  have hvalue := readBack hlayout hv (2 * (printOnto layout 0 gap v).length + 2) 0 0 gap (by omega)
    (by omega) (ends_blank hgap)
  have hskip : skipBlank gap = [] := by
    rw [← List.append_nil gap, skipBlank_append hgap]
    rfl
  rw [parse?, parseWith?, hvalue]
  exact if_pos hskip

end Values

end Arbor.JsonValue
