import Arbor.Command.Run
import Arbor.Host.Memory
import Arbor.Proofs.Command.Session
import Arbor.Proofs.Tree.Memo
import Arbor.Proofs.Tree.Verdict

/-! Hashes and digests of all nodes are found in one pass. -/
namespace Arbor

namespace Tree

section Tabulating

variable {α β : Type}

/-- How a pass with a table stands to the values that trees have alone. What is shown of a value
need not be the value. -/
structure Tabulates (record : Option (Memo α) → Except Fault (α × Option (Memo α)))
    (pass : Except Fault (Marked α)) (shown : α → β) (alone : Tree → Except Fault β)
    (t : Tree) : Prop where
  /-- Without a table the pass gives the value of the tree. -/
  value : (record none).map (fun r => shown r.1) = alone t
  /-- With a table it gives the entries of all nodes too, and none if it fails. -/
  table : record (some []) = pass.map fun m => (m.value, some m.entries)
  fails : ∀ f, pass = .error f ↔ alone t = .error f
  every : ∀ m, pass = .ok m → ∀ p x, t.at? p = some x →
    ∃ v, (p, v) ∈ m.entries ∧ alone x = .ok (shown v)
  only : ∀ m, pass = .ok m → ∀ p v, (p, v) ∈ m.entries →
    ∃ x, t.at? p = some x ∧ alone x = .ok (shown v)

variable {combine : Head → List α → α} {operation : Operation} {limit : Int}

theorem validate_of_markAt {t : Tree} {m : Marked α}
    (h : markAt combine operation limit 0 t = .ok m) : t.validate limit = .ok () := by
  have hverdict : verdict (markAt combine operation limit 0 t) = _ :=
    verdict_markAt combine operation t
  rw [h] at hverdict
  obtain ⟨u, hvalid⟩ := verdict_eq_ok_iff.mp hverdict.symm
  exact hvalid

/-- In the table of a pass stands what the pass finds for each node alone. -/
theorem tabulates_markAt (empty : α) (shown : α → β) (t : Tree) :
    Tabulates (fun memo => recordAt combine operation limit [] memo t)
      (markAt combine operation limit 0 t) shown
      (fun x => (markAt combine operation limit 0 x).map fun m => shown m.value) t := by
  refine ⟨?_, ?_, ?_, ?_, ?_⟩
  -- recording is marking, whether or not there is a table
  · simp only [recordAt_eq, List.length_nil]
    cases markAt combine operation limit 0 t <;> rfl
  · simp only [recordAt_eq, List.length_nil]
    cases markAt combine operation limit 0 t <;> rfl
  · intro f
    cases markAt combine operation limit 0 t <;> simp [Except.map]
  -- the entry under a path is the value of the node there, and the subtree alone has that value
  · intro m hm p x hx
    obtain ⟨n, hn, hvalue⟩ := markAt_of_at? empty hm (validate_of_markAt hm) hx
    exact ⟨n.value, Marked.mem_entries_iff.mpr hvalue, by rw [hn]; rfl⟩
  · intro m hm p v hentry
    have hv := Marked.mem_entries_iff.mp hentry
    rw [valueAt?_of_markAt empty hm, Option.map_eq_some_iff] at hv
    obtain ⟨x, hx, rfl⟩ := hv
    obtain ⟨n, hn, -⟩ := markAt_of_at? empty hm (validate_of_markAt hm) hx
    refine ⟨x, hx, ?_⟩
    rw [hn, ← (markAt_eq_ok empty hn).2]
    rfl

end Tabulating

end Tree

namespace Session

variable {hasher : Hasher} {limit : Int} {t : Tree}

/-- What is printed of a tree: the line of its root, or those of all its nodes. -/
def hashText (hasher : Hasher) (all : Bool) (limit : Int) (t : Tree) : Except Fault Bytes := do
  let digests ← t.digests limit
  let hashes ← t.hashes hasher limit
  return if all then hashLines digests.values hashes.values t.places
    else hashLine digests.value hashes.value none

theorem hashLines_map (f : Tree.Place → Bytes) (g : Tree.Place → UInt64) (ps : List Tree.Place) :
    hashLines (ps.map f) (ps.map g) ps =
      (ps.map fun p => hashLine (f p) (g p) (some p)).flatten := by
  induction ps with
  | nil => rfl
  | cons p ps ih =>
      rw [List.map_cons, List.map_cons, hashLines, ih, List.map_cons, List.flatten_cons]

def pairText (digest : Bytes) (hash : UInt64) : Bytes :=
  digest ++ 32 :: Bytes.hexFixed Bytes.hexDigit 16 hash.toNat

theorem hashLine_none (digest : Bytes) (hash : UInt64) :
    hashLine digest hash none = pairText (Digest.write digest) hash ++ [10] := by
  simp [hashLine, pairText]

theorem hashLine_some (digest : Bytes) (hash : UInt64) (p : Tree.Place) :
    hashLine digest hash (some p) = pairText (Digest.write digest) hash ++
      32 :: (Bytes.blanks (2 * p.depth) ++ p.tree.label) ++ [10] := by
  simp [hashLine, pairText]

/-- A line of the listing is the one printed for the subtree at a path alone, with the place of the
node put in at the end. -/
def LineOf (hasher : Hasher) (limit : Int) (t : Tree) (p : Path) (line : Bytes) : Prop :=
  ∃ x digest hash, t.at? p = some x ∧
    x.digest limit = .ok digest ∧ x.hash hasher limit = .ok hash ∧
    hashText hasher false limit x = .ok (pairText digest hash ++ [10]) ∧
    line = pairText digest hash ++ 32 :: (Bytes.blanks (2 * p.length) ++ x.label) ++ [10]

theorem hashText_eq_error_iff {all : Bool} {f : Fault} :
    hashText hasher all limit t = .error f ↔
      t.digests limit = .error f ∨
        (∃ ds, t.digests limit = .ok ds) ∧ t.hashes hasher limit = .error f := by
  rw [hashText]
  cases t.digests limit with
  | error e => simp [bind, Except.bind]
  | ok ds => cases t.hashes hasher limit <;> simp [bind, Except.bind, pure, Except.pure]

/-- If the passes succeed on a tree, they succeed on the subtree at a path, and the line printed
for it is made of the values that its node has in the whole tree. -/
theorem lineOf_below {ds : Marked Bytes} {hs : Marked UInt64} (hds : t.digests limit = .ok ds)
    (hhs : t.hashes hasher limit = .ok hs) {p : Path} (hp : p ∈ t.paths) :
    let q := Tree.Place.below ⟨t, 0, none⟩ p
    LineOf hasher limit t p (hashLine
      (q.tree.fold [] fun h cs => Bytes.toHex (Sha256.hash (h.digestInput cs)))
      (q.tree.fold 0 fun h cs => hasher (h.hashInput cs)) (some q)) := by
  intro q
  obtain ⟨h, cs, hx⟩ := Tree.mem_paths_iff.mp hp
  have hq : q = ⟨.node h cs, p.length, t.parentKind? p⟩ := by
    rw [show q = _ from Tree.below_root t p, hx, Option.getD_some]
  have hvalid := Tree.validate_of_markAt hds
  obtain ⟨d, hd, -⟩ := Tree.markAt_of_at? [] hds hvalid hx
  obtain ⟨n, hn, -⟩ := Tree.markAt_of_at? 0 hhs hvalid hx
  have hdigest : (Tree.node h cs).digest limit = .ok (Digest.write d.value) := by
    rw [Tree.digest, Tree.digestWith, Tree.digestsWith, hd]
    rfl
  have hhash : (Tree.node h cs).hash hasher limit = .ok n.value := by
    rw [Tree.hash, Tree.hashes, hn]
    rfl
  refine ⟨_, _, _, hx, hdigest, hhash, ?_, ?_⟩
  · rw [← hashLine_none, hashText, Tree.digests, Tree.digestsWith, hd, Tree.hashes, hn]
    rfl
  · rw [hq, hashLine_some, ← (Tree.markAt_eq_ok [] hd).2, ← (Tree.markAt_eq_ok 0 hn).2]

theorem exists_lines {text : Bytes} (htext : hashText hasher true limit t = .ok text) :
    ∃ lines, text = lines.flatten ∧ List.Forall₂ (LineOf hasher limit t) t.paths lines := by
  obtain ⟨ds, hds, htext⟩ := bind_eq_ok_iff.mp htext
  obtain ⟨hs, hhs, htext⟩ := bind_eq_ok_iff.mp htext
  cases htext
  have hdigests := Tree.values_of_markAt [] hds
  have hhashes := Tree.values_of_markAt 0 hhs
  rw [← Tree.map_tree_places, List.map_map] at hdigests hhashes
  rw [if_pos rfl, hdigests, hhashes, hashLines_map]
  refine ⟨_, rfl, ?_⟩
  rw [Tree.places_eq, List.map_map]
  exact List.forall₂_map_right_iff.mpr (List.forall₂_same.mpr fun p hp => lineOf_below hds hhs hp)

section Printing

variable {m : Type → Type} [Monad m] [LawfulMonad m] [Host m]

/-- After its reports the program writes what is printed of the tree, or fails as that does. -/
theorem run_hashTree (s : Session) (t : Tree) :
    ∃ notes : List (List Note), (s.hashTree t : ExceptT Failure m Unit).run =
      notes.forM s.trace >>= fun _ =>
        match hashText fnv1a s.options.all s.limit t with
        | .ok text => s.emit text >>= fun _ => pure (.ok ())
        | .error f => pure (.error (.fault f)) := by
  cases hds : t.digests s.limit with
  | error f =>
      refine ⟨[], ?_⟩
      rw [hashText_eq_error_iff.mpr (.inl hds), hashTree, hds]
      simp [orFault]
  | ok ds =>
      cases hhs : t.hashes fnv1a s.limit with
      | error f =>
          refine ⟨[Note.ofDigests ds], ?_⟩
          rw [hashText_eq_error_iff.mpr (.inr ⟨⟨ds, hds⟩, hhs⟩), hashTree, hds, hhs]
          simp [orFault, trace_lift]
      | ok hs =>
          have htext : hashText fnv1a s.options.all s.limit t =
              .ok (if s.options.all then hashLines ds.values hs.values t.places
                else hashLine ds.value hs.value none) := by
            rw [hashText, hds, hhs]
            rfl
          refine ⟨[Note.ofDigests ds, Note.ofHashes hs], ?_⟩
          rw [htext, hashTree, hds, hhs]
          simp [orFault, trace_lift, emit_lift]

/-- The tables of hashes and of digests are those of the subtrees. A pass succeeds with a table
exactly if it does without one, and fails alike; it then has an entry for each node and for nothing
else, which is the hash or the digest of the node as the root of a tree of its own. A listing of all
nodes fails as a single line does; otherwise it has in pre-order, which is the order of the paths,
the line of each subtree, with the place of the node put in. That is what the command writes, after
its reports. -/
theorem tables_recompute (hasher : Hasher) (limit : Int) (t : Tree) :
    Tree.Tabulates
      (fun memo => t.recordAt (fun h cs => hasher (h.hashInput cs)) .hashing limit [] memo)
      (t.hashes hasher limit) id (Tree.hash hasher limit) t ∧
    Tree.Tabulates
      (fun memo => t.recordAt (fun h cs => Bytes.toHex (Sha256.hash (h.digestInput cs)))
        .digesting limit [] memo)
      (t.digests limit) Digest.write (Tree.digest limit) t ∧
    (∀ f, hashText hasher true limit t = .error f ↔ hashText hasher false limit t = .error f) ∧
    (t.paths.Pairwise (· < ·) ∧ ∀ p, p ∈ t.paths ↔ ∃ h cs, t.at? p = some (.node h cs)) ∧
    (∀ text, hashText hasher true limit t = .ok text →
      ∃ lines, text = lines.flatten ∧ List.Forall₂ (LineOf hasher limit t) t.paths lines) ∧
    ∀ s : Session,
      (∀ names, (s.hash names : ExceptT Failure m Unit) = s.eachTree [] s.hashTree names) ∧
      ∃ notes : List (List Note), (s.hashTree t : ExceptT Failure m Unit).run =
        notes.forM s.trace >>= fun _ =>
          match hashText fnv1a s.options.all s.limit t with
          | .ok text => s.emit text >>= fun _ => pure (.ok ())
          | .error f => pure (.error (.fault f)) := by
  refine ⟨Tree.tabulates_markAt 0 id t, Tree.tabulates_markAt [] Digest.write t, ?_,
    ⟨t.paths_ascending, fun _ => Tree.mem_paths_iff⟩, ?_, ?_⟩
  · intro f
    rw [hashText_eq_error_iff, hashText_eq_error_iff]
  · intro text htext
    exact exists_lines htext
  · intro s
    exact ⟨fun _ => rfl, run_hashTree s t⟩

/-- Below the root of a sum the limit is used up, but not for its operands alone. -/
theorem tables_recompute_sum :
    let t := Tree.node (.binary [0x2B])
      [.node (.identifier [0x61]) [], .node (.identifier [0x62]) []]
    ∃ hs ds text lines, t.hashes fnv1a 1 = .ok hs ∧ t.digests 1 = .ok ds ∧
      (∃ v, ([1], v) ∈ hs.entries ∧ (Tree.node (.identifier [0x62]) []).hash fnv1a 1 = .ok v) ∧
      (∃ d, ([1], d) ∈ ds.entries ∧
        (Tree.node (.identifier [0x62]) []).digest 1 = .ok (Digest.write d)) ∧
      hashText fnv1a true 1 t = .ok text ∧ text = lines.flatten ∧
      List.Forall₂ (LineOf fnv1a 1 t) [[], [0], [1]] lines := by
  intro t
  obtain ⟨hhash, hdigest, -, -, hlines, -⟩ :=
    tables_recompute (m := StateM Memory) fnv1a 1 t
  have hvalid : t.validate 1 = .ok () := by rfl
  obtain ⟨hs, hhs⟩ : ∃ hs, t.hashes fnv1a 1 = .ok hs := Tree.markAt_succeeds hvalid
  obtain ⟨ds, hds⟩ : ∃ ds, t.digests 1 = .ok ds := Tree.markAt_succeeds hvalid
  obtain ⟨text, htext⟩ : ∃ text, hashText fnv1a true 1 t = .ok text :=
    ⟨_, by rw [hashText, hhs, hds]; rfl⟩
  obtain ⟨lines, hflat, hall⟩ := hlines text htext
  exact ⟨hs, ds, text, lines, hhs, hds, hhash.every hs hhs [1] _ rfl,
    hdigest.every ds hds [1] _ rfl, htext, hflat, hall⟩

end Printing

end Session

end Arbor
