import Arbor.Command.Session
import Arbor.Proofs.Text.Token

/-! A path names a format by its suffix, perhaps with `.zst` behind it. -/
namespace Arbor

namespace Bytes

def small (c : UInt8) : UInt8 := if 65 ≤ c ∧ c ≤ 90 then c + 32 else c

theorem lt_of_small {c : UInt8} (h : small c < 0x80) : c < 0x80 := by
  unfold small at h
  split at h
  next hc => exact UInt8.lt_of_le_of_lt hc.2 (by decide)
  next => exact h

/-- Bytes are cut in front of the first `x`, if there is one. -/
theorem exists_takeWhile_ne (x : UInt8) (b : Bytes) :
    ∃ front back, b = front ++ back ∧ b.takeWhile (· ≠ x) = front ∧ x ∉ front ∧
      (back = [] ∨ ∃ rest, back = x :: rest) := by
  induction b with
  | nil => exact ⟨[], [], rfl, rfl, List.not_mem_nil, .inl rfl⟩
  | cons c b ih =>
      by_cases hc : c = x
      · subst hc
        exact ⟨[], c :: b, rfl, List.takeWhile_cons_of_neg (by simp), List.not_mem_nil,
          .inr ⟨b, rfl⟩⟩
      · obtain ⟨front, back, rfl, hfront, hmem, hback⟩ := ih
        refine ⟨c :: front, back, rfl, ?_,
          List.not_mem_cons_of_ne_of_not_mem (Ne.symm hc) hmem, hback⟩
        rw [List.takeWhile_cons_of_pos (by simp [hc]), hfront]

end Bytes

namespace Utf8

variable {b w : Bytes}

theorem lowerAscii_of_le {c : Char} (hc : 0x80 ≤ c.toNat) :
    lowerAscii c = 'i' ∨ lowerAscii c = 'k' ∨ lowerAscii c = c := by
  unfold lowerAscii
  split
  · exact .inl rfl
  split
  · exact .inr (.inl rfl)
  · refine .inr (.inr (dif_neg fun hupper => ?_))
    have hle := UInt32.le_iff_toNat_le.mp hupper.2
    exact absurd (Nat.le_trans hc hle) (by decide)

theorem encode_lowerAscii {c : Char} (hc : c.toNat < 0x80) :
    encode (lowerAscii c) = (encode c).map Bytes.small := by
  have hall : ∀ n < 0x80, encode (lowerAscii (Char.ofNat n)) =
      (encode (Char.ofNat n)).map Bytes.small := by decide
  rw [← Char.ofNat_toNat c]
  exact hall _ hc

theorem ofChars_lowerAscii (hb : ∀ c ∈ chars b, c.toNat < 0x80) :
    ofChars ((chars b).map lowerAscii) = b.map Bytes.small := by
  have hbytes : (pieces b).flatMap Piece.bytes = b := flatMap_bytes_piecesAfter 0 b
  conv => rhs; rw [← hbytes]
  rw [ofChars, chars, List.map_map, List.flatMap_map, List.map_flatMap]
  refine List.flatMap_congr fun p hp => ?_
  have hchar := hb p.char (List.mem_map_of_mem hp)
  cases p with
  | scalar c => exact encode_lowerAscii hchar
  | stray x => exact absurd hchar (by decide : ¬ '\uFFFD'.toNat < 0x80)

/-- A word without `i` and `k` is spelled in small letters or capitals and not otherwise. -/
theorem ofChars_lowerAscii_eq_iff (hw : w.IsWord) (hi : 105 ∉ w) (hk : 107 ∉ w) :
    ofChars ((chars b).map lowerAscii) = w ↔ b.map Bytes.small = w := by
  have hascii : ∀ x ∈ w, x < 0x80 := (Bytes.IsToken.ofIsWord hw).ascii
  constructor
  · intro h
    rw [← h, ofChars_lowerAscii]
    intro c hc
    have hchars := congrArg chars h
    rw [chars_ofChars, chars_ascii hascii] at hchars
    have hlower : lowerAscii c ∈ w.map fun x => Char.ofNat x.toNat :=
      hchars ▸ List.mem_map_of_mem hc
    obtain ⟨x, hx, hlower⟩ := List.mem_map.mp hlower
    have hlt : x.toNat < 0x80 := UInt8.lt_iff_toNat_lt.mp (hascii x hx)
    have hnat : (lowerAscii c).toNat = x.toNat := by
      rw [← hlower, toNat_ofNat_of_valid (.inl (by omega))]
    by_contra hge
    rcases lowerAscii_of_le (Nat.le_of_not_lt hge) with hc | hc | hc <;> rw [hc] at hnat
    · exact hi ((UInt8.toNat_inj.mp hnat : (105 : UInt8) = x) ▸ hx)
    · exact hk ((UInt8.toNat_inj.mp hnat : (107 : UInt8) = x) ▸ hx)
    · exact hge (hnat ▸ hlt)
  · rintro rfl
    refine ofChars_lowerAscii ?_
    have hb : ∀ x ∈ b, x < 0x80 :=
      fun x hx => Bytes.lt_of_small (hascii _ (List.mem_map_of_mem hx))
    rw [chars_ascii hb]
    intro c hc
    obtain ⟨x, hx, rfl⟩ := List.mem_map.mp hc
    have hlt : x.toNat < 0x80 := UInt8.lt_iff_toNat_lt.mp (hb x hx)
    rwa [toNat_ofNat_of_valid (.inl (by omega))]

end Utf8

namespace Format

variable {f g : Format} {b path ext : Bytes}

theorem mem_all (f : Format) : f ∈ all := by
  cases f <;> decide

/-- The names are words, so there is neither a point nor a slash in them. -/
theorem isWord_names : ∀ w ∈ f.names.map Bytes.ofString, w.IsWord ∧ 105 ∉ w ∧ 107 ∉ w := by
  cases f <;> decide

theorem names_disjoint (hf : b ∈ f.names.map Bytes.ofString) (hg : b ∈ g.names.map Bytes.ofString) :
    f = g := by
  have hall : ∀ w ∈ f.names.map Bytes.ofString, w ∈ g.names.map Bytes.ofString → f = g := by
    cases f <;> cases g <;> decide
  exact hall b hf hg

theorem ofName_eq_ok_iff : ofName b = .ok f ↔ b.map Bytes.small ∈ f.names.map Bytes.ofString := by
  have hname : ∀ g : Format, (g.names.any fun n =>
      Bytes.ofString n = Utf8.ofChars ((Utf8.chars b).map Utf8.lowerAscii)) = true ↔
        b.map Bytes.small ∈ g.names.map Bytes.ofString := by
    intro g
    rw [List.any_eq_true, List.mem_map]
    refine exists_congr fun n => and_congr_right fun hn => ?_
    obtain ⟨hword, hi, hk⟩ := isWord_names _ (List.mem_map_of_mem hn)
    rw [decide_eq_true_iff, eq_comm, Utf8.ofChars_lowerAscii_eq_iff hword hi hk, eq_comm]
  unfold ofName
  extract_lets lower
  constructor
  · intro h
    split at h
    next g hfind =>
      have hfound := List.find?_some hfind
      cases h
      exact (hname f).mp hfound
    next => cases h
  · intro h
    split
    next g hfind =>
      have hfound := List.find?_some hfind
      rw [names_disjoint ((hname g).mp hfound) h]
    next hfind => exact absurd ((hname f).mpr h) (List.find?_eq_none.mp hfind f (mem_all f))

/-- The extension stands behind the last point, unless there is a slash behind it. -/
theorem extension?_eq_some_iff :
    extension? path = some ext ↔ 46 ∉ ext ∧ 47 ∉ ext ∧ ∃ stem, path = stem ++ 46 :: ext := by
  constructor
  · intro h
    obtain ⟨tail, front, hpath, htail, hslash, -⟩ := Bytes.exists_takeWhile_ne 47 path.reverse
    obtain ⟨name, rest, rfl, hname, hpoint, hrest⟩ := Bytes.exists_takeWhile_ne 46 tail
    simp only [extension?, htail, hname, Option.ite_none_right_eq_some, Option.some.injEq] at h
    obtain ⟨hlt, rfl⟩ := h
    rcases hrest with rfl | ⟨more, rfl⟩
    · simp at hlt
    · refine ⟨by simpa using hpoint, fun hmem => hslash (by simp [List.mem_reverse.mp hmem]),
        (more ++ front).reverse, ?_⟩
      rw [← List.reverse_inj, hpath]
      simp
  · rintro ⟨hpoint, hslash, stem, rfl⟩
    have hreverse : (stem ++ 46 :: ext).reverse = ext.reverse ++ 46 :: stem.reverse := by simp
    have htail : (stem ++ 46 :: ext).reverse.takeWhile (· ≠ 47) =
        ext.reverse ++ 46 :: stem.reverse.takeWhile (· ≠ 47) := by
      rw [hreverse, List.takeWhile_append_of_pos, List.takeWhile_cons_of_pos (by decide)]
      intro c hc
      exact decide_eq_true fun heq => hslash (heq ▸ List.mem_reverse.mp hc)
    have hname := Bytes.takeWhile_ne (x := 46) (a := ext.reverse) (by simpa using hpoint)
      (stem.reverse.takeWhile (· ≠ 47))
    simp only [extension?, htail, hname]
    rw [if_pos (by simp), List.reverse_reverse]

theorem dropCompression_append (path : Bytes) :
    dropCompression (path ++ Bytes.ofString ".zst") = path := by
  simp [dropCompression]

theorem dropCompression_cases (path : Bytes) :
    path = dropCompression path ++ Bytes.ofString ".zst" ∨ dropCompression path = path := by
  by_cases h : Bytes.ofString ".zst" <:+ path
  · obtain ⟨front, rfl⟩ := h
    exact .inl (by rw [dropCompression_append])
  · refine .inr (if_neg ?_)
    rwa [List.isSuffixOf_iff_suffix]

/-- The path ends in a point and a name of the format, in small letters or capitals, perhaps with
`.zst` behind it. -/
def EndsAs (path : Bytes) (f : Format) : Prop :=
  ∃ stem name : Bytes, name.map Bytes.small ∈ f.names.map Bytes.ofString ∧
    (path = stem ++ 46 :: name ∨ path = stem ++ 46 :: name ++ Bytes.ofString ".zst")

theorem extension?_name (stem : Bytes) {name : Bytes}
    (hname : name.map Bytes.small ∈ f.names.map Bytes.ofString) :
    extension? (stem ++ 46 :: name) = some name := by
  obtain ⟨hword, -⟩ := isWord_names _ hname
  refine extension?_eq_some_iff.mpr ⟨fun hmem => ?_, fun hmem => ?_, stem, rfl⟩
  · exact hword.not_mem (by decide) (List.mem_map_of_mem hmem : Bytes.small 46 ∈ _)
  · exact hword.not_mem (by decide) (List.mem_map_of_mem hmem : Bytes.small 47 ∈ _)

/-- A name is kept although `.zst` would be dropped, since that is no name. -/
theorem dropCompression_name {stem name : Bytes}
    (hname : name.map Bytes.small ∈ f.names.map Bytes.ofString) :
    dropCompression (stem ++ 46 :: name) = stem ++ 46 :: name := by
  rcases dropCompression_cases (stem ++ 46 :: name) with hpath | hpath
  · have hzst := extension?_name stem hname
    have hext : extension? (dropCompression (stem ++ 46 :: name) ++ Bytes.ofString ".zst") =
        some (Bytes.ofString "zst") :=
      extension?_eq_some_iff.mpr ⟨by decide, by decide, _, rfl⟩
    rw [← hpath, hzst] at hext
    have hno : (Bytes.ofString "zst").map Bytes.small ∉ f.names.map Bytes.ofString := by
      cases f <;> decide
    exact absurd (Option.some.inj hext ▸ hname) hno
  · exact hpath

theorem suffixFormat?_eq_some_iff : suffixFormat? path = some f ↔ EndsAs path f := by
  have hformat : ∀ {name : Bytes}, (if name = [] then none else (ofName name).toOption) = some f ↔
      name.map Bytes.small ∈ f.names.map Bytes.ofString := by
    intro name
    rw [← ofName_eq_ok_iff]
    by_cases hnil : name = []
    · subst hnil
      refine iff_of_false (by simp) fun hname => ?_
      exact (isWord_names _ (ofName_eq_ok_iff.mp hname)).1.ne_nil rfl
    · rw [if_neg hnil]
      cases ofName name <;> simp [Except.toOption]
  constructor
  · intro h
    obtain ⟨name, hext, hname⟩ := Option.bind_eq_some_iff.mp h
    obtain ⟨-, -, stem, hdrop⟩ := extension?_eq_some_iff.mp hext
    refine ⟨stem, name, hformat.mp hname, ?_⟩
    rcases dropCompression_cases path with hpath | hpath
    · exact .inr (hdrop ▸ hpath)
    · exact .inl (hpath.symm.trans hdrop)
  · rintro ⟨stem, name, hname, hpath⟩
    have hdrop : dropCompression path = stem ++ 46 :: name := by
      rcases hpath with rfl | rfl
      · exact dropCompression_name hname
      · exact dropCompression_append _
    rw [suffixFormat?, hdrop, extension?_name stem hname]
    exact hformat.mpr hname

theorem ofSuffix_of_endsAs (h : EndsAs path f) : ofSuffix path = f := by
  rw [ofSuffix, suffixFormat?_eq_some_iff.mpr h, Option.getD_some]

theorem suffixFormat?_eq_none (h : ∀ f, ¬ EndsAs path f) : suffixFormat? path = none :=
  Option.eq_none_iff_forall_ne_some.mpr fun f hf => h f (suffixFormat?_eq_some_iff.mp hf)

theorem ofSuffix_of_not_endsAs (h : ∀ f, ¬ EndsAs path f) : ofSuffix path = .json := by
  rw [ofSuffix, suffixFormat?_eq_none h, Option.getD_none]

/-- The suffix of a format is a point and one of its names. -/
theorem exists_suffix (f : Format) :
    ∃ name, Bytes.ofString f.suffix = 46 :: name ∧
      name.map Bytes.small ∈ f.names.map Bytes.ofString := by
  cases f <;> exact ⟨_, rfl, by decide⟩

theorem endsAs_suffix (stem : Bytes) (f : Format) :
    EndsAs (stem ++ f.suffix) f ∧ EndsAs (stem ++ f.suffix ++ Bytes.ofString ".zst") f := by
  obtain ⟨name, hsuffix, hname⟩ := f.exists_suffix
  rw [hsuffix]
  exact ⟨⟨stem, name, hname, .inl rfl⟩, ⟨stem, name, hname, .inr rfl⟩⟩

end Format

namespace Session

theorem inFormat_eq {s : Session} (hnone : s.options.inFormat = none) (path : Bytes) :
    s.inFormat path = (Format.suffixFormat? path).getD s.settings.treeFormat := by
  have hstandard : Format.suffixFormat? Options.standard = none := rfl
  rw [inFormat, hnone]
  by_cases hpath : path = Options.standard
  · rw [hpath, hstandard]
    rfl
  · simp only [if_neg hpath]

/-- A file with the suffix of a format behind any stem, compressed or not, is in that format; a path
that names no format counts as JSON. Unless an option gives the format of the input, it is the one
that the suffix of its path names. The input without a path, and a path whose suffix names no
format, leave it to the settings; if they say JSON, the format is that of the suffix alone. -/
theorem suffixes_select_formats :
    (∀ (stem : Bytes) (f : Format),
      Format.ofSuffix (stem ++ f.suffix) = f ∧
        Format.ofSuffix (stem ++ f.suffix ++ Bytes.ofString ".zst") = f) ∧
    (∀ path, (∀ f, Format.EndsAs path f → Format.ofSuffix path = f) ∧
      ((∀ f, ¬ Format.EndsAs path f) → Format.ofSuffix path = .json)) ∧
    ∀ s : Session, s.options.inFormat = none → ∀ path,
      (s.settings.treeFormat = .json → s.inFormat path = Format.ofSuffix path) ∧
      (∀ f, path ≠ Options.standard → Format.EndsAs path f → s.inFormat path = f) ∧
      (path = Options.standard ∨ (∀ f, ¬ Format.EndsAs path f) →
        s.inFormat path = s.settings.treeFormat) := by
  refine ⟨?_, ?_, ?_⟩
  · intro stem f
    obtain ⟨hplain, hcompressed⟩ := Format.endsAs_suffix stem f
    exact ⟨Format.ofSuffix_of_endsAs hplain, Format.ofSuffix_of_endsAs hcompressed⟩
  · exact fun path => ⟨fun _ => Format.ofSuffix_of_endsAs, Format.ofSuffix_of_not_endsAs⟩
  · intro s hnone path
    rw [inFormat_eq hnone]
    refine ⟨?_, ?_, ?_⟩
    · intro hjson
      rw [hjson, Format.ofSuffix]
    · intro f _ hpath
      rw [Format.suffixFormat?_eq_some_iff.mpr hpath, Option.getD_some]
    · rintro (rfl | hpath)
      · rfl
      · rw [Format.suffixFormat?_eq_none hpath, Option.getD_none]

/-- With TOML set, a suffix in mixed letters is heeded, also of a compressed file; one in front of a
slash is not, and the input has none. -/
theorem suffixes_select_formats_toml :
    let s : Session := { settings := { format := "toml" } }
    s.options.inFormat = none ∧
      s.inFormat "a.json/b.yml.YaML.zst" = .yaml ∧ s.inFormat "trees.json/b" = .toml ∧
      s.inFormat Options.standard = .toml ∧
      ({} : Session).inFormat "b.ZST" = Format.ofSuffix "b.ZST" := by
  intro s
  have hnone : s.options.inFormat = none := rfl
  obtain ⟨-, -, hall⟩ := suffixes_select_formats
  refine ⟨hnone, ?_, ?_, ?_, ?_⟩
  · exact (hall s hnone _).2.1 .yaml (by decide)
      ⟨"a.json/b.yml", "YaML", by decide, .inr (by decide)⟩
  · refine (hall s hnone _).2.2 (.inr fun f hf => ?_)
    cases Format.suffixFormat?_eq_some_iff.mpr hf
  · exact (hall s hnone _).2.2 (.inl rfl)
  · exact (hall {} rfl _).1 rfl

end Session

end Arbor
