import NullPath.Proofs.MemoryRuns
import NullPath.Proofs.PointerChains

/-!
# Tags of dereferenced pointers

Every question about a null pointer comes from a tag, so the tags that an operation leaves behind
have to be exactly those of the pointers it has followed.  These pointers are the values of a local,
of what the local points to, and so on, up to the last pointer before the cell of the place.  Some of
them are made up on the way, because nobody has read them before, and a move goes the whole way
twice.

What happens to the tags of all names is one equation for each name.  A name that was followed and
had no tag at the present node gets one there, at the end of its tags.  The tags of all other names
are as they were.  Steps that obey this equation for some pointers can be joined, because a pointer
that is met a second time is tagged by then.

* `Graph.Marks`: the equation.
* `Store.Along`: the pointers from a local on.
* `Store.marks_resolveAt`: one more dereference, one more pointer.
* `Memory.Operation.Dereferences`: the number of pointers that an operation follows.
* `Memory.Operation.tags_exact`: the tags after an operation.
-/

namespace NullPath

open Action

/-! ## Marking some names -/

/-- Each of some names that has no tag at the present node gets one there.  No other tag is added,
and what was there stays as it was. -/
def Graph.Marks (g : Graph) (env : Env) (ps : List Name) (g' : Graph) : Prop :=
  ∀ n, g'.tagsOf n = g.tagsOf n ++
    if n ∈ ps ∧ ∀ t ∈ g.tagsOf n, t.node ≠ env.node then [⟨env.node, env.span⟩] else []

namespace Graph.Marks

variable {g g' g'' : Graph} {env : Env} {ps qs : List Name}

theorem refl (g : Graph) (env : Env) : g.Marks env [] g := by
  intro n
  rw [if_neg fun h => List.not_mem_nil h.1, List.append_nil]

/-- A step that leaves all tags alone. -/
theorem quiet (h : g.Marks env ps g') (hq : ∀ n, g''.tagsOf n = g'.tagsOf n) :
    g.Marks env ps g'' := by
  intro n
  rw [hq, h]

theorem trans (h : g.Marks env ps g') (h' : g'.Marks env qs g'') : g.Marks env (ps ++ qs) g'' := by
  intro n
  rw [h' n]
  by_cases hold : ∀ t ∈ g.tagsOf n, t.node ≠ env.node
  · by_cases hp : n ∈ ps
    · -- the name is tagged by now, so it gets no second tag
      have hn : g'.tagsOf n = g.tagsOf n ++ [⟨env.node, env.span⟩] := by
        rw [h n, if_pos ⟨hp, hold⟩]
      have hsecond : ¬∀ t ∈ g.tagsOf n ++ [⟨env.node, env.span⟩], t.node ≠ env.node := fun hnew =>
        hnew _ (List.mem_append_right _ List.mem_cons_self) rfl
      rw [hn, if_neg fun h => hsecond h.2, List.append_nil,
        if_pos ⟨List.mem_append_left qs hp, hold⟩]
    · have hn : g'.tagsOf n = g.tagsOf n := by
        rw [h n, if_neg fun h => hp h.1, List.append_nil]
      rw [hn]
      simp only [List.mem_append, hp, false_or]
  · have hn : g'.tagsOf n = g.tagsOf n := by
      rw [h n, if_neg fun h => hold h.2, List.append_nil]
    rw [hn, if_neg fun h => hold h.2, if_neg fun h => hold h.2]

end Graph.Marks

namespace Store

variable {s s' : Store} {env : Env} {p : Place} {c : Cell} {n : Name} {base : Int} {k : Nat}

theorem marks_tagged {d : Declaration} (hd : s.graph.declaration? n = some d) :
    s.graph.Marks env [n] (s.tagged env n d).graph := by
  intro n'
  simp only [tagsOf_tagged hd, List.mem_singleton]

/-- Reading a cell declares names and tags none. -/
theorem tagsOf_of_readCell (h : readCell env p c s = (.ok n, s')) (n' : Name) :
    s'.graph.tagsOf n' = s.graph.tagsOf n' := by
  rcases readCell_eq_ok h with ⟨-, rfl⟩ | ⟨-, -, sort, -, -, rfl⟩
  · rfl
  · exact Graph.tagsOf_declare s.graph sort none n'

/-! ## The pointers on the way -/

/-- Some names are the values of a local, of what the local points to, and so on.  A read of the
local after `j` dereferences shows the name at position `j`, which the memory then has there. -/
def Along (s : Store) (env : Env) (base : Int) (ps : List Name) : Prop :=
  ∀ (j : Nat) n, ps[j]? = some n →
    ∃ t, readCopy env ⟨base, j⟩ s = (.ok n, t) ∧ t.memory.nameAt? (.of env.depth base) j = some n

theorem Along.nil (s : Store) (env : Env) (base : Int) : s.Along env base [] := by
  intro j n hn
  cases hn

theorem Along.concat {ps : List Name} {pointer : Name} (h : s.Along env base ps)
    (hread : readCopy env ⟨base, ps.length⟩ s = (.ok pointer, s')) :
    s.Along env base (ps ++ [pointer]) := by
  intro j n hn
  by_cases hj : j < ps.length
  · rw [List.getElem?_append_left hj] at hn
    exact h j n hn
  · rw [List.getElem?_append_right (Nat.not_lt.mp hj), List.getElem?_singleton] at hn
    split at hn
    · next hzero =>
      obtain rfl : j = ps.length := by omega
      cases hn
      exact ⟨s', hread, nameAt?_of_readCopy hread⟩
    · cases hn

/-- On the way to a cell each pointer is tagged. -/
theorem marks_resolveAt (h : resolveAt env base k s = (.ok c, s')) :
    ∃ ps, ps.length = k ∧ s.Along env base ps ∧ s.graph.Marks env ps s'.graph := by
  induction k generalizing c s' with
  | zero =>
    obtain ⟨-, -, rfl⟩ := resolveAt_zero_eq_ok.mp h
    exact ⟨[], rfl, .nil s' env base, .refl s'.graph env⟩
  | succ k ih =>
    obtain ⟨c₀, t₁, pointer, t₂, d, hc₀, hr, hd, -, rfl⟩ := resolveAt_succ_eq_ok h
    obtain ⟨ps, rfl, halong, hmarks⟩ := ih hc₀
    have hread : readCopy env ⟨base, ps.length⟩ s = (.ok pointer, t₂) :=
      readCopy_eq_ok.mpr ⟨c₀, t₁, hc₀, hr⟩
    have hquiet : s.graph.Marks env ps t₂.graph := hmarks.quiet (tagsOf_of_readCell hr)
    refine ⟨ps ++ [pointer], ?_, halong.concat hread, hquiet.trans (marks_tagged hd)⟩
    rw [List.length_append, List.length_singleton]

theorem marks_readCopy (h : readCopy env p s = (.ok n, s')) :
    ∃ ps, ps.length = p.derefs ∧ s.Along env p.base ps ∧
      s.graph.Marks env ps s'.graph := by
  obtain ⟨c, t, hc, hr⟩ := readCopy_eq_ok.mp h
  obtain ⟨ps, hlen, halong, hmarks⟩ := marks_resolveAt hc
  exact ⟨ps, hlen, halong, hmarks.quiet (tagsOf_of_readCell hr)⟩

end Store

/-! ## The tags after an operation -/

namespace Memory.Operation

variable {s s' : Store} {o : Operation} {env : Env} {base : Int} {k : Nat} {a : Answer}

/-- The operation follows so many pointers from a local on.  The address of what a pointer leads to
is the pointer, so the last pointer is not followed when an address is taken. -/
inductive Dereferences : Operation → Env → Int → Nat → Prop
  | bind (env : Env) (p : Place) (n : Name) : Dereferences (.bind env p n) env p.base p.derefs
  | readCopy (env : Env) (p : Place) : Dereferences (.readCopy env p) env p.base p.derefs
  | readMove (env : Env) (p : Place) : Dereferences (.readMove env p) env p.base p.derefs
  | writeFresh (env : Env) (p : Place) : Dereferences (.writeFresh env p) env p.base p.derefs
  | ref (env : Env) (p : Place) : Dereferences (.ref env p) env p.base (p.derefs - 1)

/-- **Tags are exact.**  Let an operation on a place succeed.  The pointers that it follows are the
values of the local of the place, of what the local points to, and so on.  Each of them that was not
tagged at the present node has got one tag there, and no other tag has been added, removed or
altered. -/
theorem tags_exact (ho : o.Dereferences env base k) (h : o.run s = (.ok a, s')) :
    ∃ ps : List Name, ps.length = k ∧ s.Along env base ps ∧ s.graph.Marks env ps s'.graph := by
  cases ho with
  | bind env p n =>
    obtain ⟨_, hbind, -⟩ := bind_pure_eq_ok.mp h
    obtain ⟨c, t, hc, rfl⟩ := Store.bind_eq_ok.mp hbind
    obtain ⟨ps, hlen, halong, hmarks⟩ := Store.marks_resolveAt hc
    exact ⟨ps, hlen, halong, hmarks⟩
  | readCopy env p =>
    obtain ⟨n, hn, -⟩ := bind_pure_eq_ok.mp h
    exact Store.marks_readCopy hn
  | readMove env p =>
    obtain ⟨n, hn, -⟩ := bind_pure_eq_ok.mp h
    obtain ⟨c, s₂, hread, -, -, rfl⟩ := Store.readMove_eq_bound hn
    obtain ⟨ps, hlen, halong, hmarks⟩ := Store.marks_readCopy hread
    exact ⟨ps, hlen, halong, hmarks⟩
  | writeFresh env p =>
    obtain ⟨n, hn, -⟩ := bind_pure_eq_ok.mp h
    obtain ⟨sort, c, t, -, hc, -, rfl⟩ := Store.writeFresh_eq_ok.mp hn
    obtain ⟨ps, hlen, halong, hmarks⟩ := Store.marks_resolveAt hc
    exact ⟨ps, hlen, halong, hmarks.quiet (Graph.tagsOf_declare t.graph sort none)⟩
  | ref env p =>
    obtain ⟨⟨n, isNew⟩, hn, -⟩ := bind_pure_eq_ok.mp h
    cases p with
    | mk base k =>
      cases k with
      | succ k =>
        obtain ⟨n', hread, -⟩ := bind_pure_eq_ok.mp hn
        exact Store.marks_readCopy hread
      | zero =>
        -- no pointer is followed to the local itself, but a name may be declared
        refine ⟨[], rfl, .nil s env base, ?_⟩
        rcases Store.ref_eq_ok hn with ⟨q, hq, -⟩ | ⟨-, -, ⟨-, -, rfl⟩ | ⟨-, -, -, rfl⟩⟩
        · cases hq
        · exact .refl _ env
        · exact (Graph.Marks.refl s.graph env).quiet (Graph.tagsOf_declare s.graph .int none)

/-- A value is moved out through two pointers, and each of them has one tag. -/
theorem unreadStore_tags_exact :
    ∃ s' ps, (readMove Store.twoStepEnv ⟨1, 2⟩).run Store.unreadStore = (.ok (.name ⟨2⟩), s') ∧
      ps.length = 2 ∧ Store.unreadStore.Along Store.twoStepEnv 1 ps ∧
      Store.unreadStore.graph.Marks Store.twoStepEnv ps s'.graph ∧
      s'.graph.tagsOf ⟨0⟩ = [⟨0, {}⟩] ∧ s'.graph.tagsOf ⟨1⟩ = [⟨0, {}⟩] ∧
      s'.graph.tagsOf ⟨2⟩ = [] := by
  obtain ⟨s', hrun, htags⟩ :
      ∃ s', (readMove Store.twoStepEnv ⟨1, 2⟩).run Store.unreadStore = (.ok (.name ⟨2⟩), s') ∧
        s'.graph.tagsOf ⟨0⟩ = [⟨0, {}⟩] ∧ s'.graph.tagsOf ⟨1⟩ = [⟨0, {}⟩] ∧
        s'.graph.tagsOf ⟨2⟩ = [] :=
    ⟨_, rfl, rfl, rfl, rfl⟩
  obtain ⟨ps, hlen, halong, hmarks⟩ :=
    tags_exact (.readMove Store.twoStepEnv ⟨1, 2⟩) hrun
  exact ⟨s', ps, hrun, hlen, halong, hmarks, htags⟩

end Memory.Operation
end NullPath
