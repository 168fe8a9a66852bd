import Arbor.Proofs.Yaml.Scalar

/-! A block is settled by its lines and by the column of the line after them. -/
namespace Arbor.Yaml

section Lines

variable {c : UInt8}

theorem skipBlank_cons (hc : isBlank c = false) (b : Bytes) : skipBlank (c :: b) = c :: b :=
  List.dropWhile_cons_of_neg (Bool.eq_false_iff.mp hc)

theorem skipBlank_blank (hc : isBlank c = false) (b : Bytes) : skipBlank (32 :: c :: b) = c :: b :=
  skipBlank_cons hc b

theorem nextLineFrom_blanks (column n : Nat) (hc : isBlank c = false ∧ c ≠ 10 ∧ c ≠ 35)
    (b : Bytes) :
    nextLineFrom column false (Bytes.blanks n ++ c :: b) = ⟨column + n, c :: b⟩ := by
  obtain ⟨hblank, hline, hcomment⟩ := hc
  simp only [isBlank, Bool.or_eq_false_iff, decide_eq_false_iff_not] at hblank
  induction n generalizing column with
  | zero =>
      rw [show Bytes.blanks 0 ++ c :: b = c :: b from rfl, nextLineFrom]
      simp [hline, hcomment, hblank]
  | succ n ih =>
      rw [show Bytes.blanks (n + 1) ++ c :: b = 32 :: (Bytes.blanks n ++ c :: b) from rfl,
        nextLineFrom, if_neg (by decide), if_neg (by decide), if_neg (by decide), if_pos rfl, ih,
        Nat.add_right_comm, Nat.add_assoc]

theorem nextLine_blanks (column : Nat) (hc : isBlank c = false ∧ c ≠ 10 ∧ c ≠ 35) (b : Bytes) :
    nextLine (Bytes.blanks column ++ c :: b) = ⟨column, c :: b⟩ := by
  rw [nextLine, nextLineFrom_blanks 0 column hc, Nat.zero_add]

theorem length_nextLineFrom (column : Nat) (comment : Bool) (b : Bytes) :
    (nextLineFrom column comment b).rest.length ≤ b.length := by
  fun_induction nextLineFrom column comment b <;> simp_all <;> omega

theorem length_nextLine (b : Bytes) : (nextLine b).rest.length ≤ b.length :=
  length_nextLineFrom 0 false b

theorem goesOn_cons (column : Nat) (hdash : c ≠ 45) (hpoint : c ≠ 46) (b : Bytes) :
    goesOn ⟨column, c :: b⟩ = true := by
  have hmark : ∀ mark, c ≠ mark → atMark mark ⟨column, c :: b⟩ = false := by
    intro mark hc
    have hne : (mark == c) = false := beq_false_of_ne hc.symm
    simp [atMark, List.isPrefixOf, hne]
  simp [goesOn, hmark 45 hdash, hmark 46 hpoint]

theorem goesOn_item (column : Nat) (b : Bytes) : goesOn ⟨column, 45 :: 32 :: b⟩ = true := by
  simp [goesOn, atMark, List.isPrefixOf]

theorem leftOf_nextLine_nil (column : Nat) : LeftOf column (nextLine []) := by
  rintro ⟨⟩

theorem LeftOf.mono {m n : Nat} {cursor : Cursor} (h : LeftOf m cursor) (hle : m ≤ n) :
    LeftOf n cursor := fun hgoes => Nat.lt_of_lt_of_le (h hgoes) hle

end Lines

section Key

variable {name b : Bytes} {d : UInt8}

theorem key?_word (hname : name.IsWord) (hd : d = 32 ∨ d = 10) (b : Bytes) :
    key? (name ++ 58 :: d :: b) = some (name, d :: b) := by
  obtain ⟨c, cs, hcs, hne⟩ := hname.exists_cons_ne
  have hcolon : atColon false (58 :: d :: b) = true := by
    rcases hd with rfl | rfl <;> rfl
  have hblank : skipBlank (58 :: d :: b) = 58 :: d :: b := rfl
  have hstart := plainStart?_token (58 :: d :: b) (.ofIsWord hname) hname.ne_nil
    (by rintro rfl; cases hcs; exact hne 45 (by decide) rfl) fun _ => by
      rw [plainLine, hcolon]
      simp
  rw [hcs, List.cons_append] at hstart ⊢
  simp only [key?, hne 34 (by decide), hne 39 (by decide), decide_false, Bool.or_self,
    Bool.false_eq_true, if_false, hstart, Option.bind_eq_bind, Option.bind_some, hblank, hcolon,
    if_true]
  rfl

theorem goesOn_word (hname : name.IsWord) (column : Nat) (b : Bytes) :
    goesOn ⟨column, name ++ b⟩ = true := by
  obtain ⟨c, cs, hcs, hne⟩ := hname.exists_cons_ne
  rw [hcs]
  exact goesOn_cons column (hne 45 (by decide)) (hne 46 (by decide)) _

theorem nextLine_word (hname : name.IsWord) (column : Nat) (b : Bytes) :
    nextLine (Bytes.blanks column ++ (name ++ b)) = ⟨column, name ++ b⟩ := by
  obtain ⟨c, cs, hcs, hne⟩ := hname.exists_cons_ne
  rw [hcs]
  exact nextLine_blanks column (by simp [isBlank, hne 32 (by decide), hne 9 (by decide),
    hne 10 (by decide), hne 35 (by decide)]) _

theorem length_key (name : Bytes) (d : UInt8) (b : Bytes) :
    b.length + 2 ≤ (name ++ 58 :: d :: b).length := by
  rw [List.length_append, List.length_cons, List.length_cons]
  omega

end Key

section Entry

variable {keys : List Bytes} {name rest : Bytes} {column : Nat} {c : Cursor}

/-- The value of a key at a column, from the text after its colon. -/
def entryValue? (fuel column : Nat) (rest : Bytes) : Option (YamlNode × Cursor) :=
  let body := skipBlank rest
  if atLineEnd body then
    let next := nextLine (dropLine body)
    if goesOn next && column < next.column then blockNode? fuel column next
    else if goesOn next && next.column = column && atItem next.rest then
      (blockItems? fuel column next).map fun r => (.sequence r.1, r.2)
    else some (.plain [], next)
  else inlineNode? fuel column body

/-- A mapping goes on with a key at its column. -/
theorem blockEntries?_key (fuel : Nat) (hgoes : goesOn c = true)
    (hkey : key? c.rest = some (name, rest)) (hnew : name ∉ keys) :
    blockEntries? (fuel + 1) c.column keys c = do
      let v ← entryValue? fuel c.column rest
      let es ← blockEntries? fuel c.column (name :: keys) v.2
      return ((name, v.1) :: es.1, es.2) := by
  change (if goesOn c && c.column = c.column then
      (key? c.rest).bind fun k => if k.1 ∈ keys then none else _
    else _) = _
  simp only [hgoes, decide_true, Bool.and_self, if_true, hkey, Option.bind_some, hnew, if_false]
  -- The step goes on in the same way after each kind of value.
  unfold entryValue?
  dsimp only
  split
  · split
    · rfl
    · split <;> rfl
  · rfl

/-- A mapping ends at a line that starts left of it. -/
theorem blockEntries?_end (fuel : Nat) (hend : LeftOf column c) :
    blockEntries? (fuel + 1) column keys c = some ([], c) := by
  change (if goesOn c && c.column = column then _
    else if goesOn c && column < c.column then none else some ([], c)) = _
  cases hgoes : goesOn c with
  | false => simp
  | true =>
      have hlt := hend hgoes
      simp [hlt.ne, Nat.not_lt.mpr hlt.le]

end Entry

/-- What a reader takes from a cursor on, with fuel for each byte, and what follows it. -/
structure Reads {α : Type} (read : Nat → Cursor → Option (α × Cursor)) (c : Cursor) (a : α)
    (rest : Bytes) : Prop where
  shorter : (nextLine rest).rest.length ≤ c.rest.length
  reads : ∀ fuel, c.rest.length < fuel → read fuel c = some (a, nextLine rest)

abbrev ReadsEntries (column : Nat) (keys : List Bytes) :=
  Reads fun fuel => blockEntries? fuel column keys

abbrev ReadsItems (column : Nat) := Reads fun fuel => blockItems? fuel column

variable {column : Nat} {keys : List Bytes} {name b more rest : Bytes} {n : YamlNode}
  {ns : List YamlNode} {es : List (Bytes × YamlNode)}

theorem ReadsEntries.nil (keys : List Bytes) (hrest : LeftOf column (nextLine rest)) :
    ReadsEntries column keys (nextLine rest) [] rest := by
  refine ⟨Nat.le_refl _, ?_⟩
  intro fuel hfuel
  cases fuel with
  | zero => cases hfuel
  | succ fuel => exact blockEntries?_end fuel hrest

theorem ReadsItems.nil (hrest : LeftOf column (nextLine rest)) :
    ReadsItems column (nextLine rest) [] rest := by
  refine ⟨Nat.le_refl _, ?_⟩
  intro fuel hfuel
  cases fuel with
  | zero => cases hfuel
  | succ fuel =>
      cases hgoes : goesOn (nextLine rest) with
      | false => simp [blockItems?, hgoes]
      | true =>
          have hlt := hrest hgoes
          simp [blockItems?, hlt.ne, Nat.not_lt.mpr hlt.le]

theorem ReadsEntries.key {d : UInt8} (hname : name.IsWord) (hkey : name ∉ keys)
    (hd : d = 32 ∨ d = 10) (hshorter : (nextLine more).rest.length ≤ b.length)
    (hvalue : ∀ fuel, b.length < fuel →
      entryValue? fuel column (d :: b) = some (n, nextLine more))
    (h : ReadsEntries column (name :: keys) (nextLine more) es rest) :
    ReadsEntries column keys ⟨column, name ++ 58 :: d :: b⟩ ((name, n) :: es) rest := by
  have hlength := length_key name d b
  refine ⟨h.shorter.trans (by dsimp only; omega), ?_⟩
  intro fuel hfuel
  dsimp only at hfuel
  obtain ⟨fuel, rfl⟩ : ∃ k, fuel = k + 1 := ⟨fuel - 1, by omega⟩
  have hstep := blockEntries?_key fuel (goesOn_word hname column (58 :: d :: b))
    (key?_word hname hd b) hkey
  rw [hvalue fuel (by omega), Option.bind_eq_bind, Option.bind_some,
    h.reads fuel (by omega)] at hstep
  exact hstep

theorem ReadsEntries.value {value : Bytes} (hname : name.IsWord) (hkey : name ∉ keys)
    (hvalue : ReadsValue value n) (hmore : LeftOf (column + 1) (nextLine more))
    (h : ReadsEntries column (name :: keys) (nextLine more) es rest) :
    ReadsEntries column keys ⟨column, name ++ 58 :: 32 :: (value ++ 10 :: more)⟩
      ((name, n) :: es) rest := by
  obtain ⟨c, cs, hcs, hblank, hline, hcomment⟩ := hvalue.head
  have hbody : skipBlank (32 :: (value ++ 10 :: more)) = value ++ 10 :: more := by
    rw [hcs, List.cons_append, skipBlank_blank hblank]
  have hend : atLineEnd (value ++ 10 :: more) = false := by
    rw [hcs, List.cons_append, atLineEnd]
    simp [hline, hcomment]
  refine h.key hname hkey (.inl rfl) ?_ ?_
  · have hnext := length_nextLine more
    rw [List.length_append, List.length_cons]
    omega
  · intro fuel hfuel
    obtain ⟨fuel, rfl⟩ : ∃ k, fuel = k + 1 := ⟨fuel - 1, by omega⟩
    rw [entryValue?]
    simp only [hbody, hend, Bool.false_eq_true, if_false]
    exact hvalue.reads fuel column more hmore

/-- A key with a sequence below it, in the same column. -/
theorem ReadsEntries.sequence (hname : name.IsWord) (hkey : name ∉ keys)
    (hrest : LeftOf column (nextLine rest))
    (h : ReadsItems column ⟨column, 45 :: 32 :: b⟩ ns rest) :
    ReadsEntries column keys
      ⟨column, name ++ 58 :: 10 :: (Bytes.blanks column ++ 45 :: 32 :: b)⟩
      [(name, .sequence ns)] rest := by
  have hshorter := h.shorter
  dsimp only at hshorter
  refine (ReadsEntries.nil (name :: keys) hrest).key hname hkey (.inr rfl) ?_ ?_
  · rw [List.length_append]
    omega
  · intro fuel hfuel
    rw [List.length_append] at hfuel
    have hbelow : nextLine (dropLine (skipBlank (10 :: (Bytes.blanks column ++ 45 :: 32 :: b)))) =
        ⟨column, 45 :: 32 :: b⟩ := nextLine_blanks column (by decide) (32 :: b)
    have hend : atLineEnd (skipBlank (10 :: (Bytes.blanks column ++ 45 :: 32 :: b))) = true := rfl
    have hitem : atItem (45 :: 32 :: b) = true := rfl
    rw [entryValue?]
    simp only [hend, hbelow, if_true, goesOn_item, Nat.lt_irrefl, decide_false, Bool.and_false,
      Bool.false_eq_true, if_false, decide_true, hitem, Bool.and_self,
      h.reads fuel (by dsimp only; omega), Option.map_some]

theorem blockNode?_mapping {d : UInt8} (hname : name.IsWord) (hd : d = 32 ∨ d = 10)
    (h : ReadsEntries column [] ⟨column, name ++ 58 :: d :: b⟩ es rest) (fuel : Nat)
    (hfuel : (name ++ 58 :: d :: b).length < fuel) (floor : Int) :
    blockNode? (fuel + 1) floor ⟨column, name ++ 58 :: d :: b⟩ =
      some (.mapping es, nextLine rest) := by
  have hitem : atItem (name ++ 58 :: d :: b) = false := by
    obtain ⟨c, cs, hcs, hne⟩ := hname.exists_cons_ne
    have hdash : c ≠ 45 := hne 45 (by decide)
    rw [hcs, List.cons_append]
    unfold atItem
    split
    next heq => exact absurd (List.cons.inj heq).1 hdash
    next heq => exact absurd (List.cons.inj heq).1 hdash
    next => rfl
  rw [blockNode?]
  simp only [hitem, Bool.false_eq_true, if_false, key?_word hname hd, Option.isSome_some, if_true,
    h.reads fuel hfuel, Option.map_some]

/-- An item that is a mapping, with its first key after the dash. -/
theorem ReadsItems.mapping {d : UInt8} (hname : name.IsWord) (hd : d = 32 ∨ d = 10)
    (h : ReadsEntries (column + 2) [] ⟨column + 2, name ++ 58 :: d :: b⟩ es more)
    (hmore : ReadsItems column (nextLine more) ns rest) :
    ReadsItems column ⟨column, 45 :: 32 :: (name ++ 58 :: d :: b)⟩ (.mapping es :: ns) rest := by
  obtain ⟨c, cs, hcs, hne⟩ := hname.exists_cons_ne
  have hblank : isBlank c = false := by simp [isBlank, hne 32 (by decide), hne 9 (by decide)]
  have hshorter := h.shorter
  have hmoreShorter := hmore.shorter
  dsimp only at hshorter
  refine ⟨(hmoreShorter.trans hshorter).trans (Nat.le_add_right _ 2), ?_⟩
  intro fuel hfuel
  dsimp only at hfuel
  rw [List.length_cons, List.length_cons] at hfuel
  -- One step is taken for the item and one for the node in it.
  obtain ⟨fuel, rfl⟩ : ∃ k, fuel = k + 2 := ⟨fuel - 2, by omega⟩
  have hnode : blockNode? (fuel + 1) column ⟨column + 1 + 1, name ++ 58 :: d :: b⟩ =
      some (.mapping es, nextLine more) := blockNode?_mapping hname hd h fuel (by omega) column
  have hmark : atItem (45 :: 32 :: (name ++ 58 :: d :: b)) = true := rfl
  have hbody : skipBlank ((45 :: 32 :: (name ++ 58 :: d :: b)).drop 1) = name ++ 58 :: d :: b := by
    rw [hcs]
    exact skipBlank_blank hblank _
  have hend : atLineEnd (name ++ 58 :: d :: b) = false := by
    rw [hcs, List.cons_append, atLineEnd]
    simp [hne 10 (by decide), hne 35 (by decide)]
  have hblanks : ((45 :: 32 :: (name ++ 58 :: d :: b)).drop 1).takeWhile isBlank = [32] := by
    rw [hcs]
    simp [isBlank, hne 32 (by decide), hne 9 (by decide)]
  rw [blockItems?]
  simp only [goesOn_item, decide_true, hmark, Bool.and_self, if_true, hbody, hend,
    Bool.false_eq_true, if_false, hblanks, List.length_singleton, hnode, Option.bind_eq_bind,
    Option.bind_some]
  rw [hmore.reads (fuel + 1) (by omega)]
  rfl

theorem unifyLines_eq (hb : 13 ∉ b) : unifyLines b = b := by
  induction b with
  | nil => rfl
  | cons c b ih =>
      have hc : c ≠ 13 := fun h => hb (h ▸ List.mem_cons_self)
      rw [unifyLines, ih fun h => hb (List.mem_cons_of_mem c h)]
      rintro rest ⟨⟩
      exact absurd rfl hc

theorem parse?_mapping {d : UInt8} (hname : name.IsWord) (hd : d = 32 ∨ d = 10)
    (hreturn : 13 ∉ name ++ 58 :: d :: b)
    (h : ReadsEntries 0 [] ⟨0, name ++ 58 :: d :: b⟩ es []) :
    parse? (name ++ 58 :: d :: b) = some (.mapping es) := by
  have hstart : nextLine (name ++ 58 :: d :: b) = ⟨0, name ++ 58 :: d :: b⟩ :=
    nextLine_word hname 0 _
  have hgoes := goesOn_word hname 0 (58 :: d :: b)
  have hmark : atMark 45 ⟨0, name ++ 58 :: d :: b⟩ = false := by
    rw [goesOn, Bool.and_eq_true, Bool.and_eq_true, Bool.not_eq_true'] at hgoes
    exact hgoes.1.2
  have hnode := blockNode?_mapping hname hd h
    (2 * (name ++ 58 :: d :: b).length + 3) (by omega) (-1)
  have hend : goesOn (nextLine []) = false := rfl
  rw [parse?, unifyLines_eq hreturn, hstart, hmark]
  simp only [Bool.false_eq_true, if_false, Option.bind_eq_bind, Option.bind_some, hgoes,
    Bool.not_true, hnode, hend]

end Arbor.Yaml
