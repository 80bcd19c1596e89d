import Yalantinglibs.Cinatra.RadixInsert

/-!
# Runs of the router

Patterns are registered one after another, each with a handler and a method. Those for which
`insert` returns zero are the registered ones; a path should be answered by the one it is an
instance of.

A wildcard right behind the text of a registered pattern that nothing goes on from yet is put under
a node with an empty text, where `get` does not find it. A parameter is bound to the empty text
where two `/` follow each other.

## Main definitions

* `Pattern`, `Registration` — a call of `insert`
* `Router.insert`, `run` — the calls one after another
* `KeepsRoutes` — the registered patterns, and nothing else, answer a path
* `Fits` — the text before a wildcard is not that of a pattern that nothing goes on from

## Main results

* `keepsRoutes_of_fits` — where every pattern fits, they do
-/

set_option autoImplicit false

namespace Yalantinglibs.Cinatra

namespace RadixTree

/-- Static text, parameters, and at the end the rest of the path. -/
structure Pattern where
  toks : List Tok
  wf : Wf toks

/-- The text that `insert` gets. -/
def Pattern.text (pattern : Pattern) : Bytes := render pattern.toks

/-- A path is an instance of a pattern, with a text that is not empty for each parameter. -/
def Pattern.Instantiates (pattern : Pattern) (path : Bytes)
    (values : List (Bytes × Bytes)) : Prop :=
  Fills pattern.toks path values ∧ ∀ v ∈ values, v.2 ≠ []

def Pattern.Matches (pattern : Pattern) (path : Bytes) : Prop :=
  ∃ values, pattern.Instantiates path values

/-- The arguments of a call of `insert`. -/
structure Registration (H : Type*) where
  pattern : Pattern
  handler : H
  method : Bytes

variable {H : Type*}

/-- The tree, and the calls for which the code was zero. -/
structure Router (H : Type*) where
  tree : Node H
  accepted : List (Registration H)

namespace Router

def empty : Router H := ⟨.ofPath [], []⟩

def insert (s : Router H) (r : Registration H) : Option (Router H) :=
  (s.tree.insert r.handler r.method r.pattern.text).map fun (tree, code) =>
    ⟨tree, if code = 0 then s.accepted ++ [r] else s.accepted⟩

/-- The answer to a path. -/
def get (s : Router H) (method path : Bytes) : Option (Node.ParseResult H) :=
  s.tree.get method path fun _ => none

end Router

/-- The calls one after another. -/
def run (s : Router H) (regs : List (Registration H)) : Option (Router H) :=
  regs.foldlM Router.insert s

/-! ### What is expected of the router -/

/-- A registered pattern that the path is an instance of answers it, unless another one may. -/
def FindsAt (s : Router H) (path : Bytes) : Prop :=
  ∀ r ∈ s.accepted, ∀ values, r.pattern.Instantiates path values →
    (∀ q ∈ s.accepted, q.pattern.text ≠ r.pattern.text → ¬ q.pattern.Matches path) →
    s.get r.method path = some ⟨true, some r.handler, bind (fun _ => none) values⟩

/-- A handler is found only for an instance of a registered pattern. -/
def FindsOnlyAt (s : Router H) (path : Bytes) : Prop :=
  ∀ method handler params, s.get method path = some ⟨true, some handler, params⟩ →
    ∃ r ∈ s.accepted, r.pattern.Matches path

/-- The later calls do not change the answer where only earlier patterns match. -/
def UnchangedAt (s s' : Router H) (later : List (Registration H)) (path : Bytes) : Prop :=
  (∃ r ∈ s.accepted, r.pattern.Matches path) → (∀ r ∈ later, ¬ r.pattern.Matches path) →
    ∀ method, s'.get method path = s.get method path

/-- The calls keep every route, as far as a path can tell. -/
def KeepsRoutes (regs : List (Registration H)) (path : Bytes) : Prop :=
  ∃ s, run .empty regs = some s ∧ FindsAt s path ∧ FindsOnlyAt s path ∧
    ∀ earlier later, regs = earlier ++ later →
      ∃ s₀, run .empty earlier = some s₀ ∧ UnchangedAt s₀ s later path

/-! ### When a pattern fits -/

/-- The pattern is not empty, and before a wildcard there is not just the text of a registered
pattern that no registered pattern goes on from, nor nothing at all as the first pattern. The static
text is without the byte zero, and the name of the rest of the path without a colon. -/
structure Fits (accepted : List (Registration H)) (pattern : Pattern) : Prop where
  ne_nil : pattern.toks ≠ []
  clean : Clean pattern.toks
  first : ∀ w post, pattern.toks = w :: post → w.IsWild → accepted ≠ []
  behind : ∀ pre w post, pattern.toks = pre ++ w :: post → w.IsWild →
    ∀ q ∈ accepted, q.pattern.toks = pre →
      ∃ q' ∈ accepted, ∃ x more, q'.pattern.toks = pre ++ x :: more

/-- Every pattern fits when its turn comes. -/
def AllFit : Router H → List (Registration H) → Prop
  | _, [] => True
  | s, r :: regs => Fits s.accepted r.pattern ∧ ∀ s', s.insert r = some s' → AllFit s' regs

/-- No registered pattern has the path as an instance with an empty parameter only. -/
def NoneEmpty (s : Router H) (path : Bytes) : Prop :=
  ∀ r ∈ s.accepted, ∀ values, Fills r.pattern.toks path values → ∀ v ∈ values, v.2 ≠ []

/-! ### The routes are those of the registered patterns -/

/-- The routes of the tree are the registered patterns, and the tree ends at registered patterns. -/
structure Invariant (s : Router H) : Prop where
  shape : Shape s.tree
  routes : ∀ toks method handler, HasRoute s.tree toks method handler ↔
    ∃ r ∈ s.accepted, r.pattern.toks = toks ∧ r.method = method ∧ r.handler = handler
  leaves : ∀ pre, LeafAt s.tree pre →
    (∃ r ∈ s.accepted, r.pattern.toks = pre) ∨ pre = [] ∧ s.accepted = []

theorem invariant_empty : Invariant (Router.empty : Router H) where
  shape := shape_leaf
  routes := by
    intro toks method handler
    constructor
    · intro hroute
      exact absurd hroute hasRoute_ofPath
    · rintro ⟨r, hmem, -⟩
      cases hmem
  leaves := fun pre hleaf => .inr ⟨leafAt_ofPath hleaf, rfl⟩

/-- A child is the only one with its first character. -/
theorem TextBelow.eq_of_head {indices : Bytes} {children : List (Node H)} {child child' : Node H}
    (hbelow : TextBelow indices children) (hmem : child ∈ children) (hmem' : child' ∈ children)
    (hhead : child.path.head? = child'.path.head?) : child = child' := by
  obtain ⟨i, hi⟩ := List.mem_iff_getElem?.mp hmem
  obtain ⟨pre, post, rfl, -⟩ := exists_middle hi
  obtain hother | hat := mem_middle.mp hmem'
  · obtain ⟨c, more, hpath, -⟩ := hbelow.head hmem
    have hc : child.path.head? = some c := by rw [hpath, List.head?_cons]
    exact absurd (hhead.symm.trans hc) (hbelow.others hc hother)
  · exact (List.mem_singleton.mp hat).symm

/-- Nothing goes on from an end of the tree. -/
theorem LeafAt.not_hasRoute {root : Node H} {pre more : List Tok} {x : Tok} {method : Bytes}
    {handler : H} (hleaf : LeafAt root pre) :
    ¬ HasRoute root (pre ++ x :: more) method handler := by
  induction hleaf with
  | here =>
    intro hroute
    generalize ht : [] ++ x :: more = t at hroute
    cases hroute with
    | here => cases ht
    | text hbelow hmem =>
      obtain ⟨c, -, -, hc⟩ := hbelow.head hmem
      cases hc
  | colon hchild ih =>
    intro hroute
    obtain ⟨hnil, -⟩ | ⟨t', ht, hroute⟩ := hasRoute_colon_iff.mp hroute
    · cases hnil
    · obtain ⟨-, rfl⟩ := List.cons.inj ht
      exact ih hroute
  | @text _ _ _ _ child toks hbelow hmem hchild ih =>
    intro hroute
    obtain ⟨c, p, hpath, -⟩ := hbelow.head hmem
    obtain ⟨hnil, -⟩ | ⟨child', hmem', t', ht, hroute⟩ := (hasRoute_text_iff hbelow).mp hroute
    · rw [hpath] at hnil
      cases hnil
    · obtain ⟨c', p', hpath', -⟩ := hbelow.head hmem'
      have hc : c = c' := by
        rw [hpath, hpath'] at ht
        exact Tok.lit.inj (List.cons.inj ht).1
      have hhead : child.path.head? = child'.path.head? := by rw [hpath, hpath', hc]; rfl
      obtain rfl := hbelow.eq_of_head hmem hmem' hhead
      rw [List.append_assoc] at ht
      obtain rfl := List.append_cancel_left ht
      exact ih hroute

/-! ### Runs -/

section Step

variable {s s' : Router H} {r : Registration H}

/-- A pattern that fits has no wildcard where the tree ends. -/
theorem Invariant.fitsBelow (hinv : Invariant s) (hfits : Fits s.accepted r.pattern) :
    FitsBelow s.tree r.pattern.toks := by
  intro pre w post htoks hwild hleaf
  obtain ⟨q, hq, hpre⟩ | ⟨rfl, hnone⟩ := hinv.leaves pre hleaf
  · obtain ⟨q', hq', x, more, htoks'⟩ := hfits.behind pre w post htoks hwild q hq hpre
    have hroute : HasRoute s.tree (pre ++ x :: more) q'.method q'.handler :=
      (hinv.routes _ _ _).mpr ⟨q', hq', htoks', rfl, rfl⟩
    exact hleaf.not_hasRoute hroute
  · exact hfits.first w post htoks hwild hnone

/-- A call with a new pattern that fits keeps the invariant. -/
theorem Invariant.insert (hinv : Invariant s) (hfits : Fits s.accepted r.pattern)
    (hnew : ∀ q ∈ s.accepted, q.pattern.text ≠ r.pattern.text) :
    ∃ s', s.insert r = some s' ∧ Invariant s' ∧
      (s'.accepted = s.accepted ++ [r] ∨ s'.accepted = s.accepted) := by
  obtain ⟨tree, code, hinsert, hdone⟩ := insertLoop_spec r.handler r.method _ hinv.shape
    r.pattern.wf hfits.clean hfits.ne_nil (hinv.fitsBelow hfits) (Nat.lt_succ_self _)
  have hstep : s.insert r =
      some ⟨tree, if code = 0 then s.accepted ++ [r] else s.accepted⟩ := by
    rw [Router.insert, Node.insert, Pattern.text, hinsert]
    rfl
  have hold : ∀ q ∈ s.accepted, q.pattern.toks ≠ r.pattern.toks := by
    intro q hq htoks
    apply hnew q hq
    rw [Pattern.text, Pattern.text, htoks]
  refine ⟨_, hstep, ⟨hdone.shape, fun toks m h => ?routes, fun pre hleaf => ?leaves⟩, ?accepted⟩
  case routes =>
    rw [hdone.routes]
    by_cases hcode : code = 0
    · rw [if_pos hcode]
      simp only [List.mem_append, List.mem_singleton, or_and_right, exists_or, exists_eq_left]
      by_cases htoks : toks = r.pattern.toks
      · rw [if_pos ⟨hcode, htoks⟩, or_iff_right]
        · exact ⟨fun ⟨hm, hh⟩ => ⟨htoks.symm, hm.symm, hh.symm⟩, fun ⟨_, hm, hh⟩ =>
            ⟨hm.symm, hh.symm⟩⟩
        · rintro ⟨q, hq, hat, -⟩
          exact hold q hq (hat.trans htoks)
      · rw [if_neg (fun hat => htoks hat.2), hinv.routes, or_iff_left]
        rintro ⟨hat, -⟩
        exact htoks hat.symm
    · rw [if_neg hcode, if_neg (fun hat => hcode hat.1)]
      exact hinv.routes toks m h
  case leaves =>
    obtain hold' | ⟨hcode, rfl⟩ := hdone.leaves pre hleaf
    · obtain ⟨q, hq, htoks⟩ | ⟨rfl, hnone⟩ := hinv.leaves pre hold'
      · left
        refine ⟨q, ?_, htoks⟩
        split
        · exact List.mem_append_left _ hq
        · exact hq
      · -- the tree was empty, and has a child now
        have hcode := hdone.fresh (leafAt_nil hold')
        exact absurd (leafAt_nil hleaf) (hdone.inner hfits.ne_nil hcode)
    · left
      rw [if_pos hcode]
      exact ⟨r, List.mem_append_right _ (List.mem_singleton_self r), rfl⟩
  case accepted =>
    by_cases hcode : code = 0
    · exact .inl (if_pos hcode)
    · exact .inr (if_neg hcode)

/-- A run of new patterns that fit keeps the invariant, and the registered patterns stay. -/
theorem Invariant.run (regs : List (Registration H)) (hinv : Invariant s) (hfit : AllFit s regs)
    (hdistinct : (regs.map fun r => r.pattern.text).Nodup)
    (hnew : ∀ q ∈ s.accepted, ∀ r ∈ regs, q.pattern.text ≠ r.pattern.text) :
    ∃ s', RadixTree.run s regs = some s' ∧ Invariant s' ∧
      (∀ q ∈ s.accepted, q ∈ s'.accepted) ∧
      ∀ q ∈ s'.accepted, q ∈ s.accepted ∨ q ∈ regs := by
  induction regs generalizing s with
  | nil => exact ⟨s, rfl, hinv, fun _ hq => hq, fun _ hq => .inl hq⟩
  | cons r regs ih =>
    obtain ⟨hfits, hrest⟩ := hfit
    rw [List.map_cons, List.nodup_cons] at hdistinct
    obtain ⟨s', hstep, hinv', haccepted⟩ :=
      hinv.insert hfits fun q hq => hnew q hq r (List.mem_cons_self ..)
    have hsub : ∀ q ∈ s'.accepted, q ∈ s.accepted ∨ q = r := by
      intro q hq
      obtain heq | heq := haccepted
      · rw [heq, List.mem_append, List.mem_singleton] at hq
        exact hq
      · rw [heq] at hq
        exact .inl hq
    have hkeep : ∀ q ∈ s.accepted, q ∈ s'.accepted := by
      intro q hq
      obtain heq | heq := haccepted
      · rw [heq]
        exact List.mem_append_left _ hq
      · rwa [heq]
    have hnew' : ∀ q ∈ s'.accepted, ∀ r ∈ regs, q.pattern.text ≠ r.pattern.text := by
      intro q hq r' hr'
      obtain hq | rfl := hsub q hq
      · exact hnew q hq r' (List.mem_cons_of_mem _ hr')
      · intro heq
        apply hdistinct.1
        rw [heq]
        exact List.mem_map_of_mem hr'
    obtain ⟨s'', hrun, hinv'', hkeep', hsub'⟩ := ih hinv' (hrest s' hstep) hdistinct.2 hnew'
    refine ⟨s'', ?_, hinv'', fun q hq => hkeep' q (hkeep q hq), fun q hq => ?_⟩
    · rw [RadixTree.run, List.foldlM_cons, hstep]
      exact hrun
    · obtain hq | hq := hsub' q hq
      · obtain hq | rfl := hsub q hq
        · exact .inl hq
        · exact .inr (List.mem_cons_self ..)
      · exact .inr (List.mem_cons_of_mem _ hq)

/-- The answer to an instance of a registered pattern, for any method. -/
theorem Invariant.get_of_instantiates (hinv : Invariant s) (hr : r ∈ s.accepted) {path : Bytes}
    {values : List (Bytes × Bytes)} (hpath : Fills r.pattern.toks path values) (method : Bytes) :
    s.get method path =
      some ⟨true, answer method r.method r.handler, bind (fun _ => none) values⟩ := by
  have hroute : HasRoute s.tree r.pattern.toks r.method r.handler :=
    (hinv.routes _ _ _).mpr ⟨r, hr, rfl, rfl, rfl⟩
  exact get_of_fills hroute r.pattern.wf hpath

theorem AllFit.of_append {earlier later : List (Registration H)}
    (hfit : AllFit s (earlier ++ later)) :
    AllFit s earlier ∧ ∀ s', RadixTree.run s earlier = some s' → AllFit s' later := by
  induction earlier generalizing s with
  | nil =>
    refine ⟨trivial, ?_⟩
    rintro s' hrun
    cases hrun
    exact hfit
  | cons r earlier ih =>
    obtain ⟨hfits, hrest⟩ := hfit
    refine ⟨⟨hfits, fun s' hstep => (ih (hrest s' hstep)).1⟩, fun s'' hrun => ?_⟩
    rw [RadixTree.run, List.foldlM_cons] at hrun
    cases hstep : s.insert r with
    | none =>
      rw [hstep] at hrun
      cases hrun
    | some s' =>
      rw [hstep] at hrun
      exact (ih (hrest s' hstep)).2 s'' hrun

end Step

/-- Where every pattern fits when its turn comes, the router keeps every route. -/
theorem keepsRoutes_of_fits (regs : List (Registration H)) (path : Bytes)
    (hdistinct : (regs.map fun r => r.pattern.text).Nodup) (hfit : AllFit .empty regs)
    (hnonempty : ∀ s, run .empty regs = some s → NoneEmpty s path) : KeepsRoutes regs path := by
  obtain ⟨s, hrun, hinv, -, -⟩ := invariant_empty.run regs hfit hdistinct fun q hq => by cases hq
  refine ⟨s, hrun, ?finds, ?findsOnly, ?unchanged⟩
  case finds =>
    intro r hr values hpath _
    rw [hinv.get_of_instantiates hr hpath.1, answer, if_pos rfl]
  case findsOnly =>
    intro method handler params hget
    obtain ⟨toks, values, hroute, hfills, -⟩ := fills_of_get hinv.shape hget
    obtain ⟨r, hr, rfl, -, -⟩ := (hinv.routes _ _ _).mp hroute
    exact ⟨r, hr, values, hfills, hnonempty s hrun r hr values hfills⟩
  case unchanged =>
    rintro earlier later rfl
    obtain ⟨hfit₀, hrest⟩ := hfit.of_append
    rw [List.map_append, List.nodup_append] at hdistinct
    obtain ⟨hdistinct₀, hdistinct₁, hacross⟩ := hdistinct
    obtain ⟨s₀, hrun₀, hinv₀, -, hsub⟩ :=
      invariant_empty.run earlier hfit₀ hdistinct₀ fun q hq => by cases hq
    have hnew : ∀ q ∈ s₀.accepted, ∀ r ∈ later, q.pattern.text ≠ r.pattern.text := by
      intro q hq r hr
      obtain hq | hq := hsub q hq
      · cases hq
      · exact hacross _ (List.mem_map_of_mem hq) _ (List.mem_map_of_mem hr)
    obtain ⟨s', hrun', -, hkeep, -⟩ := hinv₀.run later (hrest s₀ hrun₀) hdistinct₁ hnew
    have hsame : s' = s := by
      rw [run, List.foldlM_append] at hrun
      rw [run] at hrun₀ hrun'
      rw [hrun₀] at hrun
      exact Option.some.inj (hrun'.symm.trans hrun)
    subst hsame
    refine ⟨s₀, hrun₀, ?_⟩
    rintro ⟨r, hr, values, hpath⟩ - method
    rw [hinv.get_of_instantiates (hkeep r hr) hpath.1, hinv₀.get_of_instantiates hr hpath.1]

/-- The pattern `/`. -/
def slashPattern : Pattern := ⟨[.lit 47], by simp [Wf, typeColon, typeAsterisk]⟩

/-- The pattern `/:a`. -/
def paramPattern : Pattern :=
  ⟨[.lit 47, .param [97]], by simp [Wf, typeColon, typeAsterisk, typeSlash]⟩

/-- The pattern `/:a/b`. -/
def longPattern : Pattern :=
  ⟨[.lit 47, .param [97], .lit 47, .lit 98], by simp [Wf, typeColon, typeAsterisk, typeSlash]⟩

/-- `/:a` and then `/:a/b`, with the path `/5`. -/
theorem keepsRoutes_param :
    KeepsRoutes [⟨paramPattern, 0, []⟩, ⟨longPattern, 1, []⟩] [47, 53] := by
  have hstep : Router.empty.insert ⟨paramPattern, 0, []⟩ =
      some ⟨.mk [] {} [47] [.mk [47] {} [58] [.mk [97] ⟨[], some 0⟩ [] []]],
        [⟨paramPattern, 0, []⟩]⟩ := rfl
  have hrun : run .empty [⟨paramPattern, 0, []⟩, ⟨longPattern, 1, []⟩] =
      some ⟨.mk [] {} [47] [.mk [47] {} [58] [.mk [97] ⟨[], some 0⟩ [47]
        [.mk [47, 98] ⟨[], some 1⟩ [] []]]],
        [⟨paramPattern, 0, []⟩, ⟨longPattern, 1, []⟩]⟩ := rfl
  apply keepsRoutes_of_fits
  · decide
  · refine ⟨⟨List.cons_ne_nil _ _, ?_, ?_, ?_⟩, ?_⟩
    · simp [paramPattern, Clean]
    · rintro w post htoks hwild
      cases htoks
      cases hwild
    · intro pre w post _ _ q hq
      cases hq
    · intro s' hs'
      rw [hstep] at hs'
      cases hs'
      refine ⟨⟨List.cons_ne_nil _ _, ?_, ?_, ?_⟩, fun _ _ => trivial⟩
      · simp [longPattern, Clean]
      · exact fun _ _ _ _ => List.cons_ne_nil _ _
      · rintro pre w post htoks hwild q hq rfl
        rw [List.mem_singleton.mp hq] at htoks
        cases htoks
        cases hwild
  · intro s hs
    rw [hrun] at hs
    cases hs
    intro r hr values hfills
    simp only [List.mem_cons, List.not_mem_nil, or_false] at hr
    obtain rfl | rfl := hr
    · obtain ⟨path, hpath, hrest⟩ := @Fills.of_lits [47] _ _ _ hfills
      have hat : [53] = path := (List.cons.inj hpath).2
      cases hrest with
      | param _ _ hrest =>
        cases hrest
        rw [List.append_nil] at hat
        subst hat
        decide
    · obtain ⟨path, hpath, hrest⟩ := @Fills.of_lits [47] _ _ _ hfills
      have hat : [53] = path := (List.cons.inj hpath).2
      cases hrest with
      | @param _ value _ _ _ _ _ hrest =>
        obtain ⟨_, rfl, hrest⟩ := @Fills.of_lits [47, 98] _ _ _ hrest
        have hlength := congrArg List.length hat
        simp only [List.length_append, List.length_cons, List.length_nil] at hlength
        omega

/-- With `/` registered, the handler of `/:a` is not found for the path `/5`. -/
theorem not_keepsRoutes :
    ¬ ∀ (regs : List (Registration ℕ)) (path : Bytes),
      (regs.map fun r => r.pattern.text).Nodup → KeepsRoutes regs path := by
  intro hclaim
  have hrun : run .empty [⟨slashPattern, 0, []⟩, ⟨paramPattern, 1, []⟩] =
      some ⟨.mk [] {} [47] [.mk [47] ⟨[], some 0⟩ [58] [.mk [] {} [58]
        [.mk [97] ⟨[], some 1⟩ [] []]]],
        [⟨slashPattern, 0, []⟩, ⟨paramPattern, 1, []⟩]⟩ := rfl
  obtain ⟨s, hs, hfinds, -⟩ :=
    hclaim [⟨slashPattern, 0, []⟩, ⟨paramPattern, 1, []⟩] [47, 53] (by decide)
  rw [hrun] at hs
  cases hs
  have hvalue : Fills [.param [97]] ([53] ++ []) [([97], [53])] :=
    .param (by decide) (by decide) .nil
  have hpath : paramPattern.Instantiates [47, 53] [([97], [53])] :=
    ⟨.lit (hvalue), by decide⟩
  have hget := hfinds ⟨paramPattern, 1, []⟩ (by simp) _ hpath ?_
  · have hnone : (Router.get ⟨.mk [] {} [47] [.mk [47] ⟨[], some 0⟩ [58] [.mk [] {} [58]
        [.mk [97] ⟨[], some 1⟩ [] []]]],
        [⟨slashPattern, 0, []⟩, ⟨paramPattern, 1, []⟩]⟩ [] [47, 53]).map (·.handler) =
        some none := rfl
    rw [hget] at hnone
    cases hnone
  · intro q hq hne
    simp only [List.mem_cons, List.not_mem_nil, or_false] at hq
    obtain rfl | rfl := hq
    · rintro ⟨values, hfills, -⟩
      cases hfills with
      | lit hrest => cases hrest
    · exact absurd rfl hne

end RadixTree

end Yalantinglibs.Cinatra
