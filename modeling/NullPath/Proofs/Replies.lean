import NullPath.Proofs.Layouts
import NullPath.Proofs.ReplyValues

/-!
# The replies of a solver process

A process that finds a model prints its verdict and, when it is asked, a list with the values of the
declared names.  However the reply is laid out, the model is understood, with the exception of
comments that start right after an atom: the verdict, a label or a value is then read with a
semicolon in it, and the reply is an error.

A process may print anything.  Whatever model is read has values of the right sorts, and of declared
names only.  It is not checked that every declared name has a value.

* `dialogue_of_reply`, `dialogue_of_broken`, `dialogue_of_other`: the parts of a dialogue.
* `exists_error_of_verdict`, `exists_error_of_reply`: semicolons in atoms are errors.
* `dialogue_eq_model`: where a model comes from.
* `dialogue_of_layout`: a model survives the dialogue, unless a comment touches an atom.
* `dialogue_model_sorted`: what holds of every model, and when it is complete.
-/

namespace NullPath.Smt

variable {ds : List Declaration} {q : Query} {e : Sexp} {m : Model} {output rest : List Char}
  {s w : String} {ps : List (Name × Constant)} {l : List Placed} {es : List Sexp}

/-! ## The dialogue -/

theorem dialogue_of_reply {rest' : List Char} (hne : q.declarations ≠ [])
    (hread : Sexp.read output = .ok (.atom "sat", rest))
    (hreply : Sexp.read rest = .ok (e, rest')) :
    (dialogue q output).1 = (modelOf q.declarations e).map some := by
  simp [dialogue, hread, hne, hreply]

theorem dialogue_of_broken {err : ReadError} (hne : q.declarations ≠ [])
    (hread : Sexp.read output = .ok (.atom "sat", rest)) (hreply : Sexp.read rest = .error err) :
    (dialogue q output).1 = .error (err.toError.within "read get-value response") := by
  simp [dialogue, hread, hne, hreply]

/-- A verdict that is none of the three known ones is an error. -/
theorem dialogue_of_other (hread : Sexp.read output = .ok (.atom s, rest)) (hsat : s ≠ "sat")
    (hunsat : s ≠ "unsat") (hunknown : s ≠ "unknown") :
    (dialogue q output).1 = .error (unexpectedReply (.atom s)) := by
  unfold dialogue
  split <;> simp_all

/-- A verdict with a semicolon in it is an error. -/
theorem exists_error_of_verdict (hread : Sexp.read output = .ok (.atom s, rest))
    (hs : ';' ∈ s.toList) : ∃ err, (dialogue q output).1 = .error err := by
  have hother : ∀ w, ';' ∉ w.toList → s ≠ w := by
    rintro w hw rfl
    exact hw hs
  exact ⟨_, dialogue_of_other hread (hother _ (by decide)) (hother _ (by decide))
    (hother _ (by decide))⟩

/-- A reply that has an atom with a semicolon in it is an error. -/
theorem exists_error_of_reply (hne : q.declarations ≠ [])
    (hread : Sexp.read output = .ok (.atom "sat", rest))
    (hreply : ∀ e rest', Sexp.read rest = .ok (e, rest') → ∃ a, .atom a ∈ e.tokens ∧ ';' ∈ a) :
    ∃ err, (dialogue q output).1 = .error err := by
  cases hrest : Sexp.read rest with
  | error err => exact ⟨_, dialogue_of_broken hne hread hrest⟩
  | ok p =>
    obtain ⟨e, rest'⟩ := p
    obtain ⟨a, ha, hsemi⟩ := hreply e rest' hrest
    rw [dialogue_of_reply hne hread hrest]
    cases hm : modelOf q.declarations e with
    | error err => exact ⟨err, rfl⟩
    | ok m => exact absurd hsemi (semicolon_notMem_of_modelOf hm ha)

/-- A model comes from a positive verdict.  If names are declared, it is read from the tree after
the verdict. -/
theorem dialogue_eq_model (h : (dialogue q output).1 = .ok (some m)) :
    ∃ rest, Sexp.read output = .ok (.atom "sat", rest) ∧
      (q.declarations = [] ∧ m = .empty ∨
        q.declarations ≠ [] ∧ ∃ e rest', Sexp.read rest = .ok (e, rest') ∧
          modelOf q.declarations e = .ok m) := by
  unfold dialogue at h
  split at h
  · cases h
  · cases h
  · cases h
  · next rest hread =>
    refine ⟨rest, hread, ?_⟩
    by_cases hne : q.declarations = []
    · rw [hne] at h
      cases h
      exact .inl ⟨hne, rfl⟩
    · rw [if_neg (by simpa using hne)] at h
      cases hreply : Sexp.read rest with
      | error err => simp [hreply] at h
      | ok p =>
        have hmodel : (modelOf q.declarations p.1).map some = .ok (some m) := by
          simpa [hreply] using h
        cases hm : modelOf q.declarations p.1 with
        | error err => simp [hm, Except.map] at hmodel
        | ok m' =>
          obtain rfl : m' = m := by simpa [hm, Except.map] using hmodel
          exact .inr ⟨hne, p.1, p.2, rfl, hm⟩
  · cases h

/-! ## A model survives the dialogue -/

/-- An entry of a reply: the label of a name, and a value. -/
def entryTree (p : Name × Constant) : Sexp :=
  .list [.atom p.1.label, p.2.tree]

/-- A reply that gives values to names. -/
def valuesReply (ps : List (Name × Constant)) : Sexp :=
  .list (ps.map entryTree)

theorem plain_valuesReply (ps : List (Name × Constant)) : (valuesReply ps).Plain := by
  refine Sexp.plain_list fun e he => ?_
  obtain ⟨p, -, rfl⟩ := List.mem_map.mp he
  exact Sexp.plain_list (by simp [Sexp.plain_atom p.1.symbolic_label, p.2.plain_tree])

theorem modelOf_valuesReply
    (hps : ∀ p ∈ ps, p.1.index < UInt64.size ∧ ∃ s, declaredSort? ds p.1 = some s ∧ p.2.HasSort s) :
    modelOf ds (valuesReply ps) = .ok (Assoc.empty.insertAll ps) := by
  refine modelOf_eq_ok.mpr ⟨_, rfl, ?_, modelEntries_eq_ok.mpr ⟨ps, ?_, rfl⟩⟩
  · cases ps <;> simp [entryTree]
  · rw [List.map_map]
    refine List.map_congr_left fun p hp => modelEntry_eq_ok.mpr ?_
    obtain ⟨hword, s, hs, hsort⟩ := hps p hp
    exact ⟨_, _, s, rfl, Name.parse?_label hword, hs, Sexp.value_tree hsort⟩

theorem legible_of_tokens {w : List Char} (hw : Symbolic w) (he : e.Plain)
    (htokens : l.map Placed.token = .atom w :: e.tokens) : Legible l := by
  intro p hp a ha
  have hmem : Token.atom a ∈ .atom w :: e.tokens := by
    rw [← htokens, ← ha]
    exact List.mem_map_of_mem hp
  rcases List.mem_cons.mp hmem with heq | hmem
  · cases heq
    exact hw
  · exact he a hmem

/-- If no comment touches an atom, a verdict and a list that are laid out are read one after the
other. -/
theorem exists_read_of_detached (hl : Legible l)
    (htokens : l.map Placed.token = .atom w.toList :: (Sexp.list es).tokens) (hsep : Separated l)
    (hdet : Detached l) (rest : List Char) :
    ∃ mid, Sexp.read (layout l ++ rest) = .ok (.atom w, mid) ∧
      Sexp.read mid = .ok (.list es, rest) := by
  have hlast : ∀ p ∈ l.getLast?, p.token.isAtom = false := by
    intro p hp
    have hclosing : (l.map Placed.token).getLast? = some .closing := by
      rw [htokens, Sexp.tokens, List.getLast?_eq_some_iff]
      exact ⟨.atom w.toList :: .opening :: Sexp.itemTokens es, rfl⟩
    have : p.token = .closing := by
      rw [List.getLast?_map, hp] at hclosing
      simpa using hclosing
    rw [this]
    rfl
  have hfound := tokenizes_layout hsep hdet hl hlast rest
  rw [htokens] at hfound
  obtain ⟨mid, first, others⟩ := hfound.exists_of_cons
  exact ⟨mid, read_of_tokenizes (.cons first (.nil mid)), read_of_tokenizes others⟩

/-- If a comment touches an atom, the verdict is read with a semicolon in it, or what is read after
it has an atom with a semicolon in it. -/
theorem semicolon_of_not_detached (he : e.Plain) (hl : Legible l)
    (htokens : l.map Placed.token = .atom w.toList :: e.tokens) (hsep : Separated l)
    (hdet : ¬Detached l) (rest : List Char) :
    (∃ w' mid, Sexp.read (layout l ++ rest) = .ok (.atom w', mid) ∧ ';' ∈ w'.toList) ∨
    ∃ mid, Sexp.read (layout l ++ rest) = .ok (.atom w, mid) ∧
      ∀ e' rest', Sexp.read mid = .ok (e', rest') → ∃ a, .atom a ∈ e'.tokens ∧ ';' ∈ a := by
  obtain ⟨before, a, t, after, w', end', hsplit, hfound⟩ := exists_glued hsep hdet hl rest
  rw [htokens] at hsplit
  cases before with
  | nil =>
    have hread : Sexp.read (layout l ++ rest) =
        .ok (.atom (String.ofList (a ++ ';' :: w')), end') :=
      read_of_tokenizes (by rwa [Sexp.tokens, String.toList_ofList])
    exact .inl ⟨_, _, hread, by simp⟩
  | cons t₀ before =>
    obtain ⟨rfl, htree⟩ := List.cons.inj hsplit
    obtain ⟨mid, first, others⟩ := hfound.exists_of_cons
    refine .inr ⟨mid, read_of_tokenizes (.cons first (.nil mid)), fun e' rest' hread => ?_⟩
    refine ⟨a ++ ';' :: w', ?_, by simp⟩
    rcases (tokenizes_of_read hread).comparable others with hinitial | hinitial
    · rcases List.prefix_concat_iff.mp hinitial with heq | hinitial
      · simp [heq]
      · -- a tree that ends before the comment would be an initial part of the tree laid out
        have hpart : e'.tokens <+: e.tokens := hinitial.trans ⟨_, htree.symm⟩
        rw [Sexp.eq_of_tokens_initial he hpart, htree] at hinitial
        have hle := hinitial.length_le
        rw [List.append_eq, List.length_append, List.length_cons] at hle
        omega
    · exact hinitial.subset (by simp)

/-- A process that answers a query with a model of the declared names is understood, however its
reply is laid out, as long as no comment starts right after an atom.  Otherwise its answer is taken
for an error. -/
theorem dialogue_of_layout {M : Model} {ps : List (Name × Constant)} {l : List Placed}
    (hne : q.declarations ≠ []) (hnodup : (q.declarations.map Declaration.name).Nodup)
    (hword : ∀ d ∈ q.declarations, d.name.index < UInt64.size)
    (hsorted : ∀ d ∈ q.declarations, ∃ c, M.get? d.name = some c ∧ c.HasSort d.sort)
    (honly : ∀ n, (M.get? n).isSome → n ∈ q.declarations.map Declaration.name)
    (hnames : (ps.map Prod.fst).Perm (q.declarations.map Declaration.name))
    (hvalues : ∀ p ∈ ps, M.get? p.1 = some p.2)
    (htokens : l.map Placed.token = .atom "sat".toList :: (valuesReply ps).tokens)
    (hsep : Separated l) (rest : List Char) :
    (Detached l → ∃ m, (dialogue q (layout l ++ rest)).1 = .ok (some m) ∧
      ∀ n, m.get? n = M.get? n) ∧
    (¬Detached l → ∃ err, (dialogue q (layout l ++ rest)).1 = .error err) := by
  have hl : Legible l := legible_of_tokens (by decide) (plain_valuesReply ps) htokens
  constructor
  · intro hdet
    obtain ⟨mid, hsat, hreply⟩ := exists_read_of_detached hl htokens hsep hdet rest
    have hps : ∀ p ∈ ps, p.1.index < UInt64.size ∧
        ∃ s, declaredSort? q.declarations p.1 = some s ∧ p.2.HasSort s := by
      intro p hp
      obtain ⟨d, hd, hname⟩ : ∃ d ∈ q.declarations, d.name = p.1 := by
        rw [← List.mem_map]
        exact hnames.subset (List.mem_map_of_mem hp)
      obtain ⟨c, hc, hsort⟩ := hsorted d hd
      rw [hname, hvalues p hp] at hc
      cases hc
      exact ⟨hname ▸ hword d hd, d.sort, hname ▸ declaredSort?_of_mem hnodup hd, hsort⟩
    have hkeys : ∀ n, (M.get? n).isSome → n ∈ ps.map Prod.fst :=
      fun n hsome => hnames.symm.subset (honly n hsome)
    refine ⟨Assoc.empty.insertAll ps, ?_, Assoc.get?_insertAll_eq hvalues hkeys⟩
    rw [dialogue_of_reply hne hsat hreply]
    show (modelOf q.declarations (valuesReply ps)).map some = _
    rw [modelOf_valuesReply hps]
    rfl
  · intro hdet
    rcases semicolon_of_not_detached (plain_valuesReply ps) hl htokens hsep hdet rest with
      ⟨w, mid, hread, hw⟩ | ⟨mid, hread, hreply⟩
    · exact exists_error_of_verdict hread hw
    · exact exists_error_of_reply hne hread hreply

/-- A query about a number and a truth value. -/
def twoNames : Query where
  declarations := [{ name := ⟨0⟩, sort := .int }, { name := ⟨1⟩, sort := .bool }]
  assertions := []

/-- A model of the two names. -/
def twoValues : Model :=
  ⟨[(⟨0⟩, .ofInt (-3)), (⟨1⟩, .ofBool true)]⟩

/-- Its values in another order. -/
def reversedValues : List (Name × Constant) :=
  [(⟨1⟩, .ofBool true), (⟨0⟩, .ofInt (-3))]

/-- A reply with blanks, comments and line breaks at unusual places. -/
def spaciousReply : List Placed :=
  [⟨[.comment " banner".toList (by decide)], .atom "sat".toList⟩,
    ⟨[.blank ' ' rfl, .comment " found".toList (by decide)], .opening⟩,
    ⟨[], .opening⟩, ⟨[], .atom "x1".toList⟩, ⟨[.blank '\t' rfl], .atom "true".toList⟩,
    ⟨[.blank '\n' rfl], .closing⟩,
    ⟨[], .opening⟩, ⟨[], .atom "x0".toList⟩, ⟨[], .opening⟩, ⟨[], .atom "-".toList⟩,
    ⟨[.blank ' ' rfl], .atom "3".toList⟩, ⟨[], .closing⟩, ⟨[], .closing⟩,
    ⟨[.comment ")".toList (by decide)], .closing⟩]

theorem twoValues_sorted :
    ∀ d ∈ twoNames.declarations, ∃ c, twoValues.get? d.name = some c ∧ c.HasSort d.sort := by
  simp [twoNames, twoValues, Assoc.get?, Constant.HasSort, Constant.ofBool, Constant.ofInt]

theorem twoValues_only (n : Name) (h : (twoValues.get? n).isSome) :
    n ∈ twoNames.declarations.map Declaration.name := by
  have hn : n = ⟨0⟩ ∨ n = ⟨1⟩ := by
    simpa [twoValues, Assoc.get?, eq_comm (b := n)] using h
  rcases hn with rfl | rfl <;> decide

/-- The two values are understood in the spacious reply. -/
theorem spaciousReply_understood :
    layout spaciousReply = "; banner\nsat ; found\n((x1\ttrue\n)(x0(- 3));)\n)".toList ∧
      ∃ m, (dialogue twoNames (layout spaciousReply ++ [])).1 = .ok (some m) ∧
        ∀ n, m.get? n = twoValues.get? n := by
  have hnames :
      (reversedValues.map Prod.fst).Perm (twoNames.declarations.map Declaration.name) := by decide
  have hvalues : ∀ p ∈ reversedValues, twoValues.get? p.1 = some p.2 := by decide
  have htokens : spaciousReply.map Placed.token =
      .atom "sat".toList :: (valuesReply reversedValues).tokens := by decide
  have hsep : Separated spaciousReply := by
    simp [Separated, spaciousReply, Token.isAtom]
  have hdet : Detached spaciousReply := by
    simp [Detached, spaciousReply, Token.isAtom, Placed.startsWithComment, Filler.isComment]
  exact ⟨by decide, (dialogue_of_layout (by decide) (by decide) (by decide) twoValues_sorted
    twoValues_only hnames hvalues htokens hsep []).1 hdet⟩

/-- The same values, with a comment right after the verdict. -/
def touchingReply : List Placed :=
  [⟨[], .atom "sat".toList⟩, ⟨[.comment " found".toList (by decide)], .opening⟩,
    ⟨[], .opening⟩, ⟨[], .atom "x1".toList⟩, ⟨[.blank ' ' rfl], .atom "true".toList⟩,
    ⟨[], .closing⟩,
    ⟨[.blank ' ' rfl], .opening⟩, ⟨[], .atom "x0".toList⟩, ⟨[.blank ' ' rfl], .opening⟩,
    ⟨[], .atom "-".toList⟩, ⟨[.blank ' ' rfl], .atom "3".toList⟩, ⟨[], .closing⟩, ⟨[], .closing⟩,
    ⟨[], .closing⟩]

/-- A reply with the values of all declared names is rejected because of a comment right after the
verdict. -/
theorem touchingReply_rejected :
    touchingReply.map Placed.token = .atom "sat".toList :: (valuesReply reversedValues).tokens ∧
      Separated touchingReply ∧
      layout touchingReply = "sat; found\n((x1 true) (x0 (- 3)))".toList ∧
      (dialogue twoNames (layout touchingReply)).1 =
        .error (.ofText "smtlib: unexpected response: sat;") := by
  have hread : Sexp.read (layout touchingReply) =
      .ok (.atom "sat;", " found\n((x1 true) (x0 (- 3)))".toList) :=
    read_of_tokenizes (.cons (by decide) (.nil _))
  refine ⟨by decide, ?_, by decide, ?_⟩
  · simp [Separated, touchingReply, Token.isAtom]
  · rw [dialogue_of_other hread (by decide) (by decide) (by decide)]
    rfl

/-! ## Which names a model gives values to -/

/-- The name that an entry of a reply is about. -/
def entryName? : Sexp → Option Name
  | .list [label, _] => Name.parse? label.atomText
  | _ => none

/-- The names that the reply after the verdict has entries about. -/
def answeredNames (output : List Char) : List Name :=
  match Sexp.read output with
  | .ok (_, rest) =>
    match Sexp.read rest with
    | .ok (.list es, _) => es.filterMap entryName?
    | _ => []
  | _ => []

theorem filterMap_entryName? (h : es.map (modelEntry ds) = ps.map .ok) :
    es.filterMap entryName? = ps.map Prod.fst := by
  induction es generalizing ps with
  | nil =>
    obtain rfl : ps = [] := by simpa using h.symm
    rfl
  | cons e es ih =>
    cases ps with
    | nil => cases h
    | cons p ps =>
      obtain ⟨hp, hps⟩ := List.cons.inj h
      obtain ⟨label, value, s, rfl, hn, -, -⟩ := modelEntry_eq_ok.mp hp
      have hname : entryName? (.list [label, value]) = some p.1 := hn
      rw [List.filterMap_cons_some hname, ih hps, List.map_cons]

/-- A reply in printed form is understood. -/
theorem dialogue_printed (hne : q.declarations ≠ []) (ps : List (Name × Constant)) :
    (dialogue q ("sat\n" ++ (valuesReply ps).text).toList).1 =
      (modelOf q.declarations (valuesReply ps)).map some := by
  have hverdict : ("sat\n" ++ (valuesReply ps).text).toList =
      "sat".toList ++ ('\n' :: ((valuesReply ps).text.toList ++ [])) := by simp
  have hreply : Sexp.read ('\n' :: ((valuesReply ps).text.toList ++ [])) =
      .ok (valuesReply ps, []) := by
    rw [read_eq_of_token_eq (token_blank rfl _), read_text (plain_valuesReply ps) rfl]
  rw [hverdict]
  exact dialogue_of_reply hne (read_text (Sexp.plain_atom (by decide)) rfl)
    hreply

/-- Whatever a process prints, a model that is read from it gives values to declared names only, and
every value has the sort of the last declaration of its name.  The reply is not checked to be
complete: all declared names have values exactly if the reply has an entry about each of them. -/
theorem dialogue_model_sorted (hsorts : ∀ d ∈ q.declarations, d.sort = .int ∨ d.sort = .bool)
    (h : (dialogue q output).1 = .ok (some m)) :
    (∀ n c, m.get? n = some c → ∃ before d after, q.declarations = before ++ d :: after ∧
      d.name = n ∧ (∀ d' ∈ after, d'.name ≠ n) ∧ c.HasSort d.sort) ∧
    ((∀ d ∈ q.declarations, (m.get? d.name).isSome) ↔
      ∀ d ∈ q.declarations, d.name ∈ answeredNames output) := by
  obtain ⟨rest, hread, ⟨hnil, rfl⟩ | ⟨-, e, rest', hreply, hm⟩⟩ := dialogue_eq_model h
  · exact ⟨fun n c hc => by simp at hc, by simp [hnil]⟩
  · obtain ⟨es, rfl, -, hes⟩ := modelOf_eq_ok.mp hm
    obtain ⟨ps, hps, rfl⟩ := modelEntries_eq_ok.mp hes
    have hanswered : answeredNames output = ps.map Prod.fst := by
      simp only [answeredNames, hread, hreply, filterMap_entryName? hps]
    refine ⟨fun n c hc => ?_, ?_⟩
    · have hmem : (n, c) ∈ ps := by simpa using Assoc.mem_of_get?_insertAll hc
      obtain ⟨entry, -, hentry⟩ : ∃ entry ∈ es, modelEntry q.declarations entry = .ok (n, c) := by
        rw [← List.mem_map, hps]
        exact List.mem_map_of_mem hmem
      obtain ⟨label, value, s, -, -, hs, hvalue⟩ := modelEntry_eq_ok.mp hentry
      obtain ⟨before, d, after, hsplit, hname, rfl, hlast⟩ := declaredSort?_eq_some hs
      have hd : d ∈ q.declarations := by simp [hsplit]
      exact ⟨before, d, after, hsplit, hname, hlast, Sexp.hasSort_of_value (hsorts d hd) hvalue⟩
    · simp only [hanswered, Assoc.isSome_get?_insertAll, Assoc.get?_empty, Option.isSome_none,
        Bool.false_eq_true, or_false]

/-- For a reply with both values, the model gives values of the right sorts to the two names, as
the reply has entries about both. -/
theorem completeReply_sorted :
    (∀ n c, (Assoc.empty.insertAll reversedValues).get? n = some c → ∃ before d after,
      twoNames.declarations = before ++ d :: after ∧ d.name = n ∧ (∀ d' ∈ after, d'.name ≠ n) ∧
        c.HasSort d.sort) ∧
    ((∀ d ∈ twoNames.declarations,
        ((Assoc.empty.insertAll reversedValues).get? d.name).isSome) ↔
      ∀ d ∈ twoNames.declarations,
        d.name ∈ answeredNames "sat\n((x1 true) (x0 (- 3)))".toList) := by
  have htext : "sat\n((x1 true) (x0 (- 3)))" = "sat\n" ++ (valuesReply reversedValues).text := by
    decide
  have hmodel : (dialogue twoNames "sat\n((x1 true) (x0 (- 3)))".toList).1 =
      .ok (some (Assoc.empty.insertAll reversedValues)) := by
    rw [htext, dialogue_printed (by decide)]
    rfl
  exact dialogue_model_sorted (by decide) hmodel

/-- A reply that leaves out a declared name is accepted, and the model has no value of this name. -/
theorem partialReply_accepted :
    ∃ m, (dialogue twoNames "sat\n((x0 (- 3)))".toList).1 = .ok (some m) ∧
      ∃ d ∈ twoNames.declarations, m.get? d.name = none := by
  have htext : "sat\n((x0 (- 3)))" = "sat\n" ++ (valuesReply [(⟨0⟩, .ofInt (-3))]).text := by
    decide
  have hmodel : (dialogue twoNames "sat\n((x0 (- 3)))".toList).1 =
      .ok (some (Assoc.empty.insertAll [(⟨0⟩, .ofInt (-3))])) := by
    rw [htext, dialogue_printed (by decide)]
    rfl
  exact ⟨_, hmodel, by decide⟩

end NullPath.Smt
