import Arbor.Proofs.Tree.Dispatch
import Arbor.Proofs.Tree.PostOrder

/-! Handlers may fail, give no node or one of another kind, and remember earlier calls. -/
namespace Arbor

/-- Handlers that may remember: what is done to a node depends on those handed over before. -/
abbrev Responder := List Tree → Handler

namespace Walk

variable {α β : Type}

/-- A walk goes on with the nodes handed over in its first part and the result of that part. -/
def follow (w : Walk α) (next : List Tree → α → Walk β) : Walk β := w >>= next w.handed

theorem bind_of_ok {w : Walk α} {next : α → Walk β} {a : α} (h : w.result = .ok a) :
    w >>= next = ⟨w.handed ++ (next a).handed, (next a).result⟩ := by
  show Walk.bind w next = _
  rw [Walk.bind, h]

theorem bind_of_error {w : Walk α} {next : α → Walk β} {f : Fault} (h : w.result = .error f) :
    w >>= next = ⟨w.handed, .error f⟩ := by
  show Walk.bind w next = _
  rw [Walk.bind, h]

theorem ofExcept_ok_bind (a : α) (next : α → Walk β) : (ofExcept (.ok a) >>= next) = next a := rfl

end Walk

namespace Tree

mutual

/-- The walk with handlers that remember, after some nodes have been handed over. -/
def rebuildAfter (respond : Responder) (limit : Int) (depth : Nat) (before : List Tree) :
    Tree → Walk Tree
  | absent => Walk.fail (.absentTree .visiting)
  | node h cs => do
    Walk.ofExcept (checkDepth limit depth)
    Walk.ofExcept (check h.kind cs)
    (rebuildAllAfter respond limit (depth + 1) before cs).follow fun handed visited => do
      let fresh ← Walk.ofExcept (ofKind h.kind h.payload visited)
      let result ← Walk.hand (respond (before ++ handed)) fresh
      if result.isAbsent then Walk.fail (.noResult h.kind) else return result

def rebuildAllAfter (respond : Responder) (limit : Int) (depth : Nat) (before : List Tree) :
    List Tree → Walk (List Tree)
  | [] => return []
  | t :: ts =>
    (rebuildAfter respond limit depth before t).follow fun handed u => do
      let us ← rebuildAllAfter respond limit depth (before ++ handed) ts
      return u :: us

end

theorem rebuildAllAfter_const {handler : Handler} {limit : Int} {depth : Nat} {ts : List Tree}
    (hts : ∀ t ∈ ts, ∀ before, rebuildAfter (fun _ => handler) limit depth before t =
      rebuildAt handler limit depth t) (before : List Tree) :
    rebuildAllAfter (fun _ => handler) limit depth before ts =
      rebuildAll handler limit depth ts := by
  induction ts generalizing before with
  | nil => rfl
  | cons t ts ih =>
      obtain ⟨ht, hts⟩ := List.forall_mem_cons.mp hts
      simp only [rebuildAllAfter, rebuildAll, Walk.follow, ht, ih hts]

/-- Handlers that remember nothing make the walk with one handler. -/
theorem rebuildAfter_const (handler : Handler) (limit : Int) (depth : Nat) (before : List Tree)
    (t : Tree) :
    rebuildAfter (fun _ => handler) limit depth before t = rebuildAt handler limit depth t := by
  induction t generalizing depth before with
  | absent => rfl
  | node h cs ih =>
      simp only [rebuildAfter, rebuildAt, Walk.follow,
        rebuildAllAfter_const (fun c hc => ih c hc (depth + 1))]

/-- What a walk asks of a tree before it visits the children. -/
def enterAt (limit : Int) (depth : Nat) : Tree → Except Fault Unit
  | absent => .error (.absentTree .visiting)
  | node h cs => do
    checkDepth limit depth
    check h.kind cs

end Tree

/-- A call of a handler: the path to the node it is for, the node handed over and the answer. -/
structure Call where
  path : Path
  handed : Tree
  answer : Except Fault Tree

/-- The call gave a node. -/
def Call.Gave (c : Call) : Prop := ∃ r, c.answer = .ok r ∧ r ≠ .absent

namespace Tree

/-- What the calls for the children of the node at a path gave, one for each child. -/
def Results (calls : List Call) (p : Path) (cs rs : List Tree) : Prop :=
  rs.length = cs.length ∧
    ∀ i r, rs[i]? = some r → ∃ c ∈ calls, c.path = p ++ [i] ∧ c.answer = .ok r

/-- Calls of handlers in order. Each is made after calls that all gave a node, for a node of the
tree, and hands over the head of that node above what the calls for its children gave. -/
inductive Made (respond : Responder) (t : Tree) : List Call → Prop
  | nil : Made respond t []
  | snoc {calls : List Call} {p : Path} {h : Head} {cs rs : List Tree} :
      Made respond t calls → (∀ c ∈ calls, c.Gave) → t.at? p = some (.node h cs) →
      Results calls p cs rs → check h.kind rs = .ok () →
      Made respond t
        (calls ++ [⟨p, .node h rs, respond (calls.map Call.handed) (.node h rs)⟩])

/-- Where a walk can stop after some calls, and with which fault. -/
inductive Stops (limit : Int) (t : Tree) (calls : List Call) : Fault → Prop
  /-- At a node that is not entered, before any call for it or below it. -/
  | refused {p : Path} {x : Tree} {after : List Path} {f : Fault} :
      (∀ c ∈ calls, c.Gave) → t.at? p = some x → enterAt limit p.length x = .error f →
      t.postorder = calls.map Call.path ++ (x.postorder.map (p ++ ·) ++ after) →
      Stops limit t calls f
  /-- At a parent that the results for its children do not fit, before the call for it. -/
  | unfit {p : Path} {h : Head} {cs rs : List Tree} {after : List Path} {f : Fault} :
      (∀ c ∈ calls, c.Gave) → t.at? p = some (.node h cs) → Results calls p cs rs →
      ofKind h.kind h.payload rs = .error f →
      t.postorder = calls.map Call.path ++ p :: after → Stops limit t calls f
  | failed {earlier : List Call} {c : Call} {f : Fault} :
      calls = earlier ++ [c] → c.answer = .error f → Stops limit t calls f
  | nothing {earlier : List Call} {c : Call} {h : Head} {rs : List Tree} :
      calls = earlier ++ [c] → c.handed = .node h rs → c.answer = .ok .absent →
      Stops limit t calls (.noResult h.kind)

/-- A walk on its way: all calls so far gave nodes, and the other paths are still ahead. -/
structure Stage (respond : Responder) (t : Tree) (calls : List Call) (ahead : List Path) :
    Prop where
  made : Made respond t calls
  gave : ∀ c ∈ calls, c.Gave
  order : t.postorder = calls.map Call.path ++ ahead

structure Halt (respond : Responder) (limit : Int) (t : Tree) (calls : List Call) (f : Fault) :
    Prop where
  made : Made respond t calls
  order : calls.map Call.path <+: t.postorder
  stops : Stops limit t calls f

/-- What a part of a walk does: it makes calls and goes on with a result, or stops. -/
def Runs {α : Type} (respond : Responder) (limit : Int) (t : Tree) (earlier : List Call)
    (ahead : List Path) (w : Walk α) (given : List Call → α → Prop) : Prop :=
  ∃ calls, w.handed = calls.map Call.handed ∧
    ((∃ a, w.result = .ok a ∧ Stage respond t (earlier ++ calls) ahead ∧
        given (earlier ++ calls) a) ∨
      ∃ f, w.result = .error f ∧ Halt respond limit t (earlier ++ calls) f)

variable {respond : Responder} {limit : Int} {t : Tree} {earlier : List Call} {ahead : List Path}

section Run

variable {α β : Type} {given : List Call → α → Prop} {given' : List Call → β → Prop}

theorem Stage.runs_pure {a : α} (hstage : Stage respond t earlier ahead) (ha : given earlier a) :
    Runs respond limit t earlier ahead (pure a) given := by
  refine ⟨[], rfl, .inl ⟨a, rfl, ?_⟩⟩
  rw [List.append_nil]
  exact ⟨hstage, ha⟩

theorem Stage.halt {f : Fault} (hstage : Stage respond t earlier ahead)
    (hstops : Stops limit t earlier f) : Halt respond limit t earlier f :=
  ⟨hstage.made, ⟨ahead, hstage.order.symm⟩, hstops⟩

theorem Halt.runs_fail {f : Fault} (hhalt : Halt respond limit t earlier f) :
    Runs respond limit t earlier ahead (Walk.fail f) given := by
  refine ⟨[], rfl, .inr ⟨f, rfl, ?_⟩⟩
  rw [List.append_nil]
  exact hhalt

/-- The second part of a walk starts with the calls of the first. -/
theorem Runs.follow {middle : List Path} {w : Walk α} {next : List Tree → α → Walk β}
    (hw : Runs respond limit t earlier middle w given)
    (hnext : ∀ calls a, w.handed = calls.map Call.handed →
      Stage respond t (earlier ++ calls) middle → given (earlier ++ calls) a →
      Runs respond limit t (earlier ++ calls) ahead (next w.handed a) given') :
    Runs respond limit t earlier ahead (w.follow next) given' := by
  obtain ⟨calls, hhanded, ⟨a, ha, hstage, hgiven⟩ | ⟨f, hf, hhalt⟩⟩ := hw
  · obtain ⟨more, hmore, hend⟩ := hnext calls a hhanded hstage hgiven
    refine ⟨calls ++ more, ?_, ?_⟩
    · rw [Walk.follow, Walk.bind_of_ok ha, List.map_append, ← hhanded, ← hmore]
    · rw [Walk.follow, Walk.bind_of_ok ha, ← List.append_assoc]
      exact hend
  · refine ⟨calls, ?_, .inr ⟨f, ?_, hhalt⟩⟩
    · rw [Walk.follow, Walk.bind_of_error hf, hhanded]
    · rw [Walk.follow, Walk.bind_of_error hf]

theorem Runs.map {w : Walk α} {g : α → β} (hw : Runs respond limit t earlier ahead w given)
    (hg : ∀ calls a, given (earlier ++ calls) a → given' (earlier ++ calls) (g a)) :
    Runs respond limit t earlier ahead (w >>= fun a => pure (g a)) given' := by
  have hfollow : (w >>= fun a => pure (g a)) = w.follow fun _ a => pure (g a) := rfl
  rw [hfollow]
  exact hw.follow fun calls a _ hstage hgiven => hstage.runs_pure (hg calls a hgiven)

end Run

/-- The call for a node over results that fit it: the walk goes on with what the handler gives, or
stops. -/
theorem Stage.runs_call {p : Path} {h : Head} {cs rs : List Tree}
    (hstage : Stage respond t earlier (p :: ahead)) (hp : t.at? p = some (.node h cs))
    (hrs : Results earlier p cs rs) (hcheck : check h.kind rs = .ok ()) :
    Runs respond limit t earlier ahead
      (do
        let result ← Walk.hand (respond (earlier.map Call.handed)) (.node h rs)
        if result.isAbsent then Walk.fail (.noResult h.kind) else return result)
      fun calls r => ∃ c ∈ calls, c.path = p ∧ c.answer = .ok r := by
  let c : Call := ⟨p, .node h rs, respond (earlier.map Call.handed) (.node h rs)⟩
  have hmade : Made respond t (earlier ++ [c]) := hstage.made.snoc hstage.gave hp hrs hcheck
  have horder : t.postorder = (earlier ++ [c]).map Call.path ++ ahead := by
    rw [hstage.order]
    simp [c]
  refine ⟨[c], ?_⟩
  cases hanswer : respond (earlier.map Call.handed) (.node h rs) with
  | error f =>
      rw [Walk.bind_of_error (w := Walk.hand _ _) hanswer]
      exact ⟨rfl, .inr ⟨f, rfl, hmade, ⟨ahead, horder.symm⟩, .failed rfl hanswer⟩⟩
  | ok r =>
      rw [Walk.bind_of_ok (w := Walk.hand _ _) hanswer]
      cases r with
      | absent =>
          exact ⟨rfl, .inr ⟨_, rfl, hmade, ⟨ahead, horder.symm⟩, .nothing rfl rfl hanswer⟩⟩
      | node l ds =>
          refine ⟨rfl, .inl ⟨_, rfl, ⟨hmade, ?_, horder⟩, c, by simp, rfl, hanswer⟩⟩
          rw [List.forall_mem_append, List.forall_mem_singleton]
          exact ⟨hstage.gave, _, hanswer, by simp⟩

/-- The walk over the children of the node at a path, from the child with an index on. -/
theorem Stage.runs_all {p : Path} {i : Nat} {ts : List Tree}
    (hts : ∀ x ∈ ts, ∀ {earlier q ahead}, t.at? q = some x →
      Stage respond t earlier (x.postorder.map (q ++ ·) ++ ahead) →
      Runs respond limit t earlier ahead
        (rebuildAfter respond limit q.length (earlier.map Call.handed) x)
        fun calls r => ∃ c ∈ calls, c.path = q ∧ c.answer = .ok r)
    (hplaces : ∀ j x, ts[j]? = some x → t.at? (p ++ [i + j]) = some x)
    (hstage : Stage respond t earlier ((postorderAll i ts).map (p ++ ·) ++ ahead)) :
    Runs respond limit t earlier ahead
      (rebuildAllAfter respond limit (p.length + 1) (earlier.map Call.handed) ts)
      fun calls rs => rs.length = ts.length ∧
        ∀ j r, rs[j]? = some r → ∃ c ∈ calls, c.path = p ++ [i + j] ∧ c.answer = .ok r := by
  induction ts generalizing i earlier with
  | nil =>
      rw [rebuildAllAfter]
      exact Stage.runs_pure hstage ⟨rfl, by simp⟩
  | cons x ts ih =>
      obtain ⟨hx, hts⟩ := List.forall_mem_cons.mp hts
      have hpaths : (postorderAll i (x :: ts)).map (p ++ ·) ++ ahead =
          x.postorder.map (p ++ [i] ++ ·) ++ ((postorderAll (i + 1) ts).map (p ++ ·) ++ ahead) := by
        simp [postorderAll, Function.comp_def]
      rw [hpaths] at hstage
      have hfirst := hx (hplaces 0 x rfl) hstage
      rw [List.length_append, List.length_singleton] at hfirst
      rw [rebuildAllAfter]
      refine hfirst.follow ?_
      rintro calls r hhanded hstage ⟨c, hc, hpath, hanswer⟩
      rw [hhanded, ← List.map_append]
      have hshift : ∀ j, i + 1 + j = i + (j + 1) := by omega
      refine (ih hts (fun j y hy => hshift j ▸ hplaces (j + 1) y hy) hstage).map ?_
      rintro more rs ⟨hlength, hrs⟩
      refine ⟨congrArg (· + 1) hlength, ?_⟩
      rintro (_ | j) r' hr'
      · cases hr'
        exact ⟨c, List.mem_append_left more hc, hpath, hanswer⟩
      · exact hshift j ▸ hrs j r' hr'

/-- The walk over the subtree at a path, by induction on the subtree: the calls go on from the
stage where the walk comes to it, and what the call for its root gives is the result. -/
theorem Stage.runs {p : Path} {x : Tree} (hx : t.at? p = some x)
    (hstage : Stage respond t earlier (x.postorder.map (p ++ ·) ++ ahead)) :
    Runs respond limit t earlier ahead
      (rebuildAfter respond limit p.length (earlier.map Call.handed) x)
      fun calls r => ∃ c ∈ calls, c.path = p ∧ c.answer = .ok r := by
  induction x generalizing p earlier ahead with
  | absent =>
      rw [rebuildAfter]
      exact (hstage.halt (.refused hstage.gave hx rfl hstage.order)).runs_fail
  | node h cs ih =>
      rw [rebuildAfter]
      cases hdepth : checkDepth limit p.length with
      | error f =>
          have henter : enterAt limit p.length (.node h cs) = .error f := by
            rw [enterAt, hdepth]
            rfl
          exact (hstage.halt (.refused hstage.gave hx henter hstage.order)).runs_fail
      | ok u =>
          rw [Walk.ofExcept_ok_bind]
          cases hcheck : check h.kind cs with
          | error f =>
              have henter : enterAt limit p.length (.node h cs) = .error f := by
                rw [enterAt, hdepth, hcheck]
                rfl
              exact (hstage.halt (.refused hstage.gave hx henter hstage.order)).runs_fail
          | ok u =>
              rw [Walk.ofExcept_ok_bind]
              have hplaces : ∀ j c, cs[j]? = some c → t.at? (p ++ [0 + j]) = some c := by
                intro j c hc
                rw [at?_append, hx, Nat.zero_add]
                exact at?_cons_eq_some_iff.mpr ⟨c, hc, rfl⟩
              have hpaths : (postorder (.node h cs)).map (p ++ ·) ++ ahead =
                  (postorderAll 0 cs).map (p ++ ·) ++ p :: ahead := by
                simp [postorder]
              rw [hpaths] at hstage
              refine (hstage.runs_all (fun c hc => ih c hc) hplaces).follow ?_
              intro calls rs hhanded hstage hgiven
              simp only [Nat.zero_add] at hgiven
              cases hbuild : ofKind h.kind h.payload rs with
              | error f =>
                  exact (hstage.halt (.unfit hstage.gave hx hgiven hbuild hstage.order)).runs_fail
              | ok fresh =>
                  obtain ⟨hfits, rfl⟩ := ofKind_eq_ok_iff.mp hbuild
                  rw [Walk.ofExcept_ok_bind, Head.ofPayload_payload, hhanded, ← List.map_append]
                  exact hstage.runs_call hx hgiven hfits

/-- The whole walk: it makes calls for all nodes and gives what the last of them gave, or stops. -/
theorem exists_calls (respond : Responder) (limit : Int) (t : Tree) :
    Runs respond limit t [] [] (rebuildAfter respond limit 0 [] t)
      fun calls r => ∃ c ∈ calls, c.path = [] ∧ c.answer = .ok r := by
  have hpaths : t.postorder.map (([] : Path) ++ ·) ++ [] = t.postorder := by simp
  have hstage : Stage respond t [] (t.postorder.map (([] : Path) ++ ·) ++ []) := by
    rw [hpaths]
    exact ⟨.nil, by simp, rfl⟩
  exact hstage.runs rfl

theorem Made.call {calls : List Call} (hmade : Made respond t calls) :
    ∀ c ∈ calls, ∃ h cs rs, t.at? c.path = some (.node h cs) ∧ Results calls c.path cs rs ∧
      c.handed = .node h rs ∧ check h.kind rs = .ok () := by
  induction hmade with
  | nil => simp
  | @snoc calls p h cs rs hmade hgave hp hrs hcheck ih =>
      -- what earlier calls gave is still there after one more
      have hmore : ∀ (d : Call) {q ds us}, Results calls q ds us →
          Results (calls ++ [d]) q ds us := by
        intro d q ds us hus
        refine ⟨hus.1, fun i r hr => ?_⟩
        obtain ⟨c, hc, hanswer⟩ := hus.2 i r hr
        exact ⟨c, List.mem_append_left _ hc, hanswer⟩
      rw [List.forall_mem_append, List.forall_mem_singleton]
      refine ⟨?_, h, cs, rs, hp, hmore _ hrs, rfl, hcheck⟩
      intro c hc
      obtain ⟨l, ds, us, hl, hus, hhanded⟩ := ih c hc
      exact ⟨l, ds, us, hl, hmore _ hus, hhanded⟩

theorem Made.gave {calls : List Call} (hmade : Made respond t calls) :
    ∀ c ∈ calls.dropLast, c.Gave := by
  cases hmade with
  | nil => simp
  | snoc _ hgave _ _ _ =>
      rw [List.dropLast_concat]
      exact hgave

/-- There is one call at most for each child, so there is one list of results. -/
theorem Results.unique {calls : List Call} {p : Path} {cs rs us : List Tree}
    (hnodup : (calls.map Call.path).Nodup) (hrs : Results calls p cs rs)
    (hus : Results calls p cs us) : rs = us := by
  refine List.ext_getElem (hrs.1.trans hus.1.symm) ?_
  intro i hi hi'
  obtain ⟨c, hc, hpath, hanswer⟩ := hrs.2 i _ (List.getElem?_eq_getElem hi)
  obtain ⟨d, hd, hpath', hanswer'⟩ := hus.2 i _ (List.getElem?_eq_getElem hi')
  rw [List.inj_on_of_nodup_map hnodup hc hd (hpath.trans hpath'.symm)] at hanswer
  exact Except.ok.inj (hanswer.symm.trans hanswer')

/-- If there was a call for every node, every parent fitted what its children gave. -/
theorem Made.accepted {calls : List Call} (hmade : Made respond t calls)
    (hall : calls.map Call.path = t.postorder) {p : Path} {h : Head} {cs rs : List Tree}
    (hp : t.at? p = some (.node h cs)) (hrs : Results calls p cs rs) :
    ofKind h.kind h.payload rs = .ok (.node h rs) := by
  have hmem := mem_postorder_of_at? hp
  rw [← hall] at hmem
  obtain ⟨c, hc, rfl⟩ := List.mem_map.mp hmem
  obtain ⟨l, ds, us, hl, hus, -, hcheck⟩ := hmade.call c hc
  cases hl.symm.trans hp
  have hnodup : (calls.map Call.path).Nodup := hall ▸ nodup_postorder t
  rw [hrs.unique hnodup hus]
  exact ofKind_eq_ok_iff.mpr ⟨hcheck, by rw [Head.ofPayload_payload]⟩

/-- A walk that stops has left out the call for some node, or its last call gave none. -/
theorem Stops.incomplete {calls : List Call} {f : Fault} (hstops : Stops limit t calls f) :
    ¬ (calls.map Call.path = t.postorder ∧ ∀ c ∈ calls, c.Gave) := by
  rintro ⟨hall, hgave⟩
  cases hstops with
  | @refused p x after _ _ _ _ horder =>
      rw [hall, List.self_eq_append_right, List.append_eq_nil_iff, List.map_eq_nil_iff] at horder
      exact List.ne_nil_of_mem (nil_mem_postorder x) horder.1
  | unfit _ _ _ _ horder =>
      rw [hall, List.self_eq_append_right] at horder
      cases horder
  | failed hlast hanswer =>
      obtain ⟨r, hr, -⟩ := hgave _ (hlast ▸ List.mem_append_right _ List.mem_cons_self)
      cases hanswer.symm.trans hr
  | nothing hlast _ hanswer =>
      obtain ⟨r, hr, hpresent⟩ := hgave _ (hlast ▸ List.mem_append_right _ List.mem_cons_self)
      cases hanswer.symm.trans hr
      exact hpresent rfl

/-- The required children of every node are there, each of the family of its position. -/
def WellShaped (t : Tree) : Prop := t.Typed ∧ t.Complete

theorem wellShaped_node_iff {h : Head} {cs : List Tree} :
    WellShaped (.node h cs) ↔ check h.kind cs = .ok () ∧ ∀ c ∈ cs, c.WellShaped := by
  rw [check_eq_ok_iff_fits]
  constructor
  · rintro ⟨⟨⟩ | ⟨hcount, hfits, htyped⟩, hcomplete⟩
    refine ⟨⟨hcount, ?_, hfits⟩, fun c hc => ⟨htyped c hc, hcomplete.children c hc⟩⟩
    intro habsent
    exact not_complete_absent (hcomplete.children _ habsent)
  · rintro ⟨⟨hcount, -, hfits⟩, hcs⟩
    exact ⟨.node hcount hfits fun c hc => (hcs c hc).1, .node fun c hc => (hcs c hc).2⟩

/-- Handlers that keep shapes are handed and give well shaped trees only: the results for the
children are well shaped, and a parent that does not fit them is not handed over. -/
theorem Made.wellShaped {calls : List Call} (hmade : Made respond t calls)
    (hrespond : ∀ before x r, x.WellShaped → respond before x = .ok r →
      r = .absent ∨ r.WellShaped) :
    ∀ c ∈ calls, c.handed.WellShaped ∧ ∀ r, c.answer = .ok r → r = .absent ∨ r.WellShaped := by
  induction hmade with
  | nil => simp
  | @snoc calls p h cs rs hmade hgave hp hrs hcheck ih =>
      have hnode : WellShaped (.node h rs) := by
        refine wellShaped_node_iff.mpr ⟨hcheck, ?_⟩
        intro r hr
        obtain ⟨i, hi⟩ := List.getElem?_of_mem hr
        obtain ⟨c, hc, -, hanswer⟩ := hrs.2 i r hi
        rcases (ih c hc).2 r hanswer with rfl | hshape
        · exact absurd hr (check_eq_ok_iff_fits.mp hcheck).2.1
        · exact hshape
      rw [List.forall_mem_append, List.forall_mem_singleton]
      exact ⟨ih, hnode, fun r hr => hrespond _ _ r hnode hr⟩

/-- A walk is a fold in post-order. Its calls are made along the enumeration of the nodes, children
before parents, each on the head of the node above what the calls for its children gave. The walk
succeeds exactly if there was a call for every node, each call gave a node, and each parent could be
built over what its children gave; the result is what the call for the root gave. Otherwise it
stops at the first failure, which is a node that is not entered, a parent that cannot be built, or
the last call. If handlers make of well shaped nodes nothing but well shaped ones, they are handed
no others, and so is the result. A visitor's walk is the case of handlers that do not remember. -/
theorem walk_folds_postorder (respond : Responder) (limit : Int) (t : Tree) :
    (∀ v : Visitor, rebuildAfter (fun _ => v.apply) limit 0 [] t = v.walk limit t) ∧
    (∃ calls : List Call,
      (rebuildAfter respond limit 0 [] t).handed = calls.map Call.handed ∧
      Made respond t calls ∧ calls.map Call.path <+: t.postorder ∧
      (∀ c ∈ calls.dropLast, c.Gave) ∧
      ((∃ r, (rebuildAfter respond limit 0 [] t).result = .ok r) ↔
        calls.map Call.path = t.postorder ∧ (∀ c ∈ calls, c.Gave) ∧
          ∀ p h cs rs, t.at? p = some (.node h cs) → Results calls p cs rs →
            ∃ x, ofKind h.kind h.payload rs = .ok x) ∧
      (∀ r, (rebuildAfter respond limit 0 [] t).result = .ok r →
        ∃ c ∈ calls, c.path = [] ∧ c.answer = .ok r) ∧
      ∀ f, (rebuildAfter respond limit 0 [] t).result = .error f → Stops limit t calls f) ∧
    ((∀ before x r, x.WellShaped → respond before x = .ok r → r = .absent ∨ r.WellShaped) →
      (∀ x ∈ (rebuildAfter respond limit 0 [] t).handed, x.WellShaped) ∧
        ∀ r, (rebuildAfter respond limit 0 [] t).result = .ok r → r.WellShaped) := by
  refine ⟨fun v => rebuildAfter_const v.apply limit 0 [] t, ?_⟩
  obtain ⟨calls, hhanded, hend⟩ := exists_calls respond limit t
  rw [List.nil_append] at hend
  rw [hhanded]
  rcases hend with ⟨r, hr, hstage, c, hc, hpath, hanswer⟩ | ⟨f, hf, hhalt⟩
  · have hall : calls.map Call.path = t.postorder := by rw [hstage.order, List.append_nil]
    have hresult : ∀ r', (rebuildAfter respond limit 0 [] t).result = .ok r' → r' = r :=
      fun r' hr' => Except.ok.inj (hr'.symm.trans hr)
    constructor
    · refine ⟨calls, rfl, hstage.made, hall ▸ List.prefix_refl _, hstage.made.gave, ?_, ?_, ?_⟩
      · refine iff_of_true ⟨r, hr⟩ ⟨hall, hstage.gave, ?_⟩
        intro p h cs rs hp hrs
        exact ⟨_, hstage.made.accepted hall hp hrs⟩
      · intro r' hr'
        rw [hresult r' hr']
        exact ⟨c, hc, hpath, hanswer⟩
      · intro f hf
        cases hr.symm.trans hf
    · intro hrespond
      have hshapes := hstage.made.wellShaped hrespond
      refine ⟨List.forall_mem_map.mpr fun d hd => (hshapes d hd).1, ?_⟩
      intro r' hr'
      rw [hresult r' hr']
      obtain ⟨x, hx, hpresent⟩ := hstage.gave c hc
      cases hanswer.symm.trans hx
      exact ((hshapes c hc).2 r hanswer).resolve_left hpresent
  · constructor
    · refine ⟨calls, rfl, hhalt.made, hhalt.order, hhalt.made.gave, ?_, ?_, ?_⟩
      · refine iff_of_false ?_ fun h => hhalt.stops.incomplete ⟨h.1, h.2.1⟩
        rintro ⟨r, hr⟩
        cases hr.symm.trans hf
      · intro r hr
        cases hr.symm.trans hf
      · intro f' hf'
        cases hf'.symm.trans hf
        exact hhalt.stops
    · intro hrespond
      have hshapes := hhalt.made.wellShaped hrespond
      refine ⟨List.forall_mem_map.mpr fun d hd => (hshapes d hd).1, ?_⟩
      intro r hr
      cases hr.symm.trans hf

/-- The first call gives a block in place of a name, and later ones would return their input. The
operator above the name cannot be built over a block, so there is no later call. -/
theorem walk_folds_postorder_block :
    let respond : Responder := fun before x =>
      if before.isEmpty then .ok (.node .block []) else .ok x
    let name := node (.identifier [120]) []
    let t := node .expression [node (.unary [0x2D] false) [name]]
    let w := rebuildAfter respond 9 0 [] t
    w.handed = [name] ∧
      w.result = .error (.childFamily .unaryOperator 0 .blockStatement .expression) ∧
      (∀ x ∈ w.handed, x.WellShaped) ∧
      ∃ calls : List Call, w.handed = calls.map Call.handed ∧
        calls.map Call.path <+: [[0, 0], [0], []] ∧ calls.length = 1 := by
  intro respond name t w
  have hrespond : ∀ before x r, x.WellShaped → respond before x = .ok r →
      r = .absent ∨ r.WellShaped := by
    intro before x r hx hr
    by_cases hbefore : before.isEmpty = true
    · rw [show respond before x = .ok (.node .block []) from if_pos hbefore] at hr
      cases hr
      exact .inr (wellShaped_node_iff.mpr ⟨rfl, by simp⟩)
    · rw [show respond before x = .ok x from if_neg hbefore] at hr
      cases hr
      exact .inr hx
  have hw : w = ⟨[name], .error (.childFamily .unaryOperator 0 .blockStatement .expression)⟩ := rfl
  obtain ⟨-, ⟨calls, hhanded, -, horder, -⟩, hshapes⟩ := walk_folds_postorder respond 9 t
  refine ⟨by rw [hw], by rw [hw], (hshapes hrespond).1, calls, hhanded, horder, ?_⟩
  have hlength := congrArg List.length hhanded
  rw [List.length_map] at hlength
  exact hlength.symm

end Tree

end Arbor
