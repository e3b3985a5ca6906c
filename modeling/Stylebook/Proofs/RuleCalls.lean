import Stylebook.Proofs.Readiness
import Stylebook.Proofs.StampedRows
import Stylebook.RuleCall

/-! Runs of calls that add rules, with calls that fail among them. A rule that fails adds nothing and takes
no stamps; a stylesheet that fails has added the rules before the one that failed. So what a run leaves is a
row of insertions, and its stamps have no gaps. -/
namespace Stylebook

/-- A list begins with elements of one kind, behind which stands one of another kind. -/
def StopsAfter {α : Type} (P Q : α → Prop) (xs before : List α) : Prop :=
  ∃ x after, xs = before ++ x :: after ∧ (∀ b ∈ before, P b) ∧ Q x

lemma exists_stopsAfter_cons {α : Type} {P Q : α → Prop} {x : α} {xs : List α} :
    (∃ before, StopsAfter P Q (x :: xs) before) ↔ Q x ∨ P x ∧ ∃ before, StopsAfter P Q xs before := by
  constructor
  · rintro ⟨before, y, after, hsplit, hbefore, hy⟩
    cases before with
    | nil =>
      obtain ⟨rfl, rfl⟩ := List.cons.inj hsplit
      exact .inl hy
    | cons b before =>
      obtain ⟨rfl, rfl⟩ := List.cons.inj hsplit
      obtain ⟨hx, hbefore⟩ := List.forall_mem_cons.mp hbefore
      exact .inr ⟨hx, before, y, after, rfl, hbefore, hy⟩
  · rintro (hx | ⟨hx, before, y, after, rfl, hbefore, hy⟩)
    · exact ⟨[], x, xs, rfl, by simp, hx⟩
    · exact ⟨x :: before, y, after, rfl, List.forall_mem_cons.mpr ⟨hx, hbefore⟩, hy⟩

namespace StyleRule

/-- Every selector has a canonical form. -/
def IsReady (r : StyleRule) : Prop := ∀ s ∈ r.selectors, ∃ t, Term.ofSelector s = .ok t

instance : DecidablePred IsReady := fun r =>
  decidable_of_iff (∀ s ∈ r.selectors, (Term.ofSelector s).isOk = true) (by
    refine forall₂_congr fun s _ => ?_
    cases Term.ofSelector s <;> simp [Except.isOk, Except.toBool])

/-- The first selector without a canonical form gives the fault. -/
def FailsWith (e : TermError) (r : StyleRule) : Prop :=
  ∃ before, StopsAfter (fun s => ∃ t, Term.ofSelector s = .ok t) (fun s => Term.ofSelector s = .error e)
    r.selectors before

end StyleRule

lemma Term.ofSelectors_eq_error_iff {ss : List Selector} {e : TermError} :
    ofSelectors ss = .error e ↔
      ∃ before, StopsAfter (fun s => ∃ t, ofSelector s = .ok t) (fun s => ofSelector s = .error e) ss
        before := by
  unfold ofSelectors
  induction ss with
  | nil => simp [StopsAfter, pure, Except.pure]
  | cons s ss ih =>
    rw [exists_stopsAfter_cons, ← ih, List.mapM_cons]
    cases ofSelector s with
    | error f => simp [bind, Except.bind]
    | ok t => cases ss.mapM ofSelector <;> simp [bind, Except.bind, pure, Except.pure]

namespace StyleRule

variable (registry : Registry) {r : StyleRule} {rs before : List StyleRule} {e : TermError}

lemma ofStyleRule_eq_error_iff : Rule.ofStyleRule registry r = .error e ↔ r.FailsWith e := by
  rw [FailsWith, ← Term.ofSelectors_eq_error_iff, Rule.ofStyleRule]
  cases Term.ofSelectors r.selectors <;> simp [Except.map]

lemma exists_ofStyleRule_iff : (∃ rule, Rule.ofStyleRule registry r = .ok rule) ↔ r.IsReady := by
  rw [IsReady, ← Term.exists_ofSelectors_iff]
  simp only [Rule.ofStyleRule_eq_ok_iff]
  tauto

lemma ofStyleRules_snd_eq_some_iff : (Rule.ofStyleRules registry rs).2 = some e ↔
    ∃ before, StopsAfter IsReady (FailsWith e) rs before := by
  induction rs with
  | nil => simp [Rule.ofStyleRules, StopsAfter]
  | cons r rs ih =>
    rw [exists_stopsAfter_cons, ← ih, ← ofStyleRule_eq_error_iff registry, ← exists_ofStyleRule_iff registry,
      Rule.ofStyleRules]
    cases Rule.ofStyleRule registry r <;> simp

lemma ofStyleRules_cons_of_isReady (h : r.IsReady) (rs : List StyleRule) :
    (Rule.ofStyleRules registry (r :: rs)).1 =
      (Rule.ofStyleRules registry [r]).1 ++ (Rule.ofStyleRules registry rs).1 := by
  obtain ⟨rule, hrule⟩ := (exists_ofStyleRule_iff registry).mpr h
  simp [Rule.ofStyleRules, hrule]

lemma ofStyleRules_cons_of_failsWith (h : r.FailsWith e) (rs : List StyleRule) :
    (Rule.ofStyleRules registry (r :: rs)).1 = [] := by
  rw [Rule.ofStyleRules, (ofStyleRule_eq_error_iff registry).mpr h]

/-- Rules behind one that fails do not count. -/
lemma ofStyleRules_fst_of_stopsAfter (h : StopsAfter IsReady (FailsWith e) rs before) :
    (Rule.ofStyleRules registry rs).1 = (Rule.ofStyleRules registry before).1 := by
  obtain ⟨r, after, rfl, hbefore, hr⟩ := h
  induction before with
  | nil => exact ofStyleRules_cons_of_failsWith registry hr after
  | cons b before ih =>
    obtain ⟨hb, hbefore⟩ := List.forall_mem_cons.mp hbefore
    rw [List.cons_append, ofStyleRules_cons_of_isReady registry hb (before ++ r :: after), ih hbefore,
      ← ofStyleRules_cons_of_isReady registry hb]

end StyleRule

/-- The rules that a call can add, and the fault at which it stops. -/
def RuleCall.ready : RuleCall → List Rule × Option TermError
  | .rule registry r => Rule.ofStyleRules registry [r]
  | .stylesheet registry sheet => Rule.ofStyleRules registry sheet.rules

section Calls

variable {σ α : Type} {add : σ → Rule → σ} {perform : σ → RuleCall → σ × Except TermError α}

/-- All that a call does, given how a rule that is ready is added. -/
structure AddsReady (add : σ → Rule → σ) (perform : σ → RuleCall → σ × Except TermError α) : Prop where
  state : ∀ s call, (perform s call).1 = call.ready.1.foldl add s
  answer : ∀ s call e, (perform s call).2 = .error e ↔ call.ready.2 = some e

/-- A rule fails just when a selector of it has no canonical form, with the fault of the first such, and
then adds nothing. A stylesheet fails just when a rule of it does, with the fault of the first such, and
then leaves what the calls for the rules before that one leave. -/
structure FailsCleanly (perform : σ → RuleCall → σ × Except TermError α) (s : σ) : Prop where
  rule_iff : ∀ registry r e, (perform s (.rule registry r)).2 = .error e ↔ r.FailsWith e
  rule_eq : ∀ registry r e, r.FailsWith e → (perform s (.rule registry r)).1 = s
  stylesheet_iff : ∀ registry sheet e, (perform s (.stylesheet registry sheet)).2 = .error e ↔
    ∃ before, StopsAfter StyleRule.IsReady (StyleRule.FailsWith e) sheet.rules before
  stylesheet_eq : ∀ registry sheet before e,
    StopsAfter StyleRule.IsReady (StyleRule.FailsWith e) sheet.rules before →
      (perform s (.stylesheet registry sheet)).1 =
        before.foldl (fun s r => (perform s (.rule registry r)).1) s

namespace AddsReady

lemma foldl_rule (h : AddsReady add perform) (registry : Registry) {rs : List StyleRule}
    (hrs : ∀ r ∈ rs, r.IsReady) (s : σ) :
    rs.foldl (fun s r => (perform s (.rule registry r)).1) s =
      (Rule.ofStyleRules registry rs).1.foldl add s := by
  induction rs generalizing s with
  | nil => rfl
  | cons r rs ih =>
    obtain ⟨hr, hrs⟩ := List.forall_mem_cons.mp hrs
    rw [List.foldl_cons, ih hrs, h.state, StyleRule.ofStyleRules_cons_of_isReady registry hr,
      List.foldl_append]
    rfl

lemma failsCleanly (h : AddsReady add perform) (s : σ) : FailsCleanly perform s where
  rule_iff registry r e := by
    rw [h.answer, RuleCall.ready, StyleRule.ofStyleRules_snd_eq_some_iff, exists_stopsAfter_cons]
    simp [StopsAfter]
  rule_eq registry r e hr := by
    rw [h.state, RuleCall.ready, StyleRule.ofStyleRules_cons_of_failsWith registry hr]
    rfl
  stylesheet_iff registry sheet e := by
    rw [h.answer, RuleCall.ready, StyleRule.ofStyleRules_snd_eq_some_iff]
  stylesheet_eq registry sheet before e hstop := by
    have hbefore : ∀ b ∈ before, b.IsReady := by
      obtain ⟨-, -, -, hbefore, -⟩ := hstop
      exact hbefore
    rw [h.state, RuleCall.ready, StyleRule.ofStyleRules_fst_of_stopsAfter registry hstop,
      h.foldl_rule registry hbefore]

end AddsReady

/-- An answer says no more than whether there was a fault, and which selectors were added. -/
lemma addsReady_of_eq {f : List Term → α}
    (hrule : ∀ s registry r, perform s (.rule registry r) =
      ((r.addTo add registry s).1, (r.addTo add registry s).2.map f))
    (hsheet : ∀ s registry sheet, perform s (.stylesheet registry sheet) =
      ((StyleRule.addAllTo add registry s sheet.rules).1,
        (StyleRule.addAllTo add registry s sheet.rules).2.map f)) : AddsReady add perform where
  state s call := by
    cases call with
    | rule registry r =>
      rw [hrule, RuleCall.ready, StyleRule.addTo, Rule.ofStyleRules]
      cases Rule.ofStyleRule registry r <;> rfl
    | stylesheet registry sheet =>
      rw [hsheet, RuleCall.ready, StyleRule.addAllTo_eq]
  answer s call e := by
    cases call with
    | rule registry r =>
      rw [hrule, RuleCall.ready, StyleRule.addTo, Rule.ofStyleRules]
      cases Rule.ofStyleRule registry r <;> simp [Except.map, Rule.ofStyleRules]
    | stylesheet registry sheet =>
      rw [hsheet, RuleCall.ready, StyleRule.addAllTo_eq]
      cases (Rule.ofStyleRules registry sheet.rules).2 <;> simp [Except.map]

end Calls

lemma Arena.addsReady : AddsReady addRule add :=
  addsReady_of_eq (f := id) (by simp [add]) (by simp [add, addStylesheet])

lemma Index.addsReady : AddsReady addRule add :=
  addsReady_of_eq (f := id) (by simp [add]) (by simp [add, addStylesheet])

lemma Cascade.addsReady : AddsReady addRule add :=
  addsReady_of_eq (f := fun _ => ()) (by simp [add]) (by simp [add, addStylesheet])

/-! ## Runs -/

/-- What a rule puts under each of its selectors. -/
def StyleRule.insertions (registry : Registry) (r : StyleRule) : List Insertion :=
  r.selectors.filterMap fun s =>
    (Term.ofSelector s).toOption.map fun t => ⟨registry.typedAll r.settings, t, t.specificity⟩

/-- What a call puts under selectors: what the rules do up to the first that fails. -/
def RuleCall.insertions : RuleCall → List Insertion
  | .rule registry r => if r.IsReady then r.insertions registry else []
  | .stylesheet registry sheet => (sheet.rules.takeWhile (·.IsReady)).flatMap (·.insertions registry)

def IndexCall.insertions : IndexCall → List Insertion
  | .insert attributes t s => [⟨attributes, t, s⟩]
  | .add call => call.insertions

lemma Rule.insertions_of_ofStyleRule {registry : Registry} {r : StyleRule} {rule : Rule}
    (h : ofStyleRule registry r = .ok rule) : rule.insertions = r.insertions registry := by
  obtain ⟨ts, hts, rfl⟩ := ofStyleRule_eq_ok_iff.mp h
  have hforms := Term.ofSelectors_eq_ok_iff.mp hts
  simp only [insertions, StyleRule.insertions]
  clear h hts
  generalize r.selectors = ss at hforms ⊢
  induction hforms with
  | nil => rfl
  | cons hst _ ih => simp [hst, Except.toOption, ih]

lemma StyleRule.flatMap_insertions_ofStyleRules (registry : Registry) (rs : List StyleRule) :
    (Rule.ofStyleRules registry rs).1.flatMap Rule.insertions =
      (rs.takeWhile (·.IsReady)).flatMap (·.insertions registry) := by
  induction rs with
  | nil => rfl
  | cons r rs ih =>
    rw [Rule.ofStyleRules, List.takeWhile_cons]
    cases hrule : Rule.ofStyleRule registry r with
    | error e =>
      have hnot : ¬ r.IsReady := by
        rw [← exists_ofStyleRule_iff registry, hrule]
        simp
      simp [hnot]
    | ok rule =>
      have hready : r.IsReady := (exists_ofStyleRule_iff registry).mp ⟨rule, hrule⟩
      simp [hready, ih, Rule.insertions_of_ofStyleRule hrule]

lemma RuleCall.flatMap_insertions_ready (call : RuleCall) :
    call.ready.1.flatMap Rule.insertions = call.insertions := by
  cases call with
  | rule registry r =>
    rw [ready, StyleRule.flatMap_insertions_ofStyleRules, insertions, List.takeWhile_cons]
    split_ifs <;> simp_all
  | stylesheet registry sheet => exact StyleRule.flatMap_insertions_ofStyleRules registry sheet.rules

/-- If an insertion takes a stamp for each of its attributes, then so do all together. -/
lemma Insertion.issued_foldl {σ : Type} (issued : σ → ℕ) {insert : σ → Insertion → σ}
    (h : ∀ s i, issued (insert s i) = issued s + i.attributes.length) (s : σ) (is : List Insertion) :
    issued (is.foldl insert s) = issued s + count is := by
  induction is generalizing s with
  | nil => rfl
  | cons i is ih => rw [List.foldl_cons, ih, h, count_cons, Nat.add_assoc]

namespace Arena

lemma foldl_addRule (a : Arena) (rs : List Rule) :
    rs.foldl addRule a = a.insertAll (rs.flatMap Rule.insertions) := by
  rw [insertAll, List.foldl_flatMap]
  simp only [Rule.insertions, List.foldl_map]
  rfl

lemma performAll_eq (a : Arena) (calls : List IndexCall) :
    a.performAll calls = a.insertAll (calls.flatMap IndexCall.insertions) := by
  rw [performAll, insertAll, List.foldl_flatMap]
  congr 1
  funext a call
  cases call with
  | insert attributes t s => rfl
  | add call =>
    rw [IndexCall.insertions, ← call.flatMap_insertions_ready]
    exact (addsReady.state a call).trans (a.foldl_addRule call.ready.1)

lemma issued_insertAll (a : Arena) (is : List Insertion) :
    (a.insertAll is).issued = a.issued + Insertion.count is :=
  Insertion.issued_foldl issued (fun _ _ => rfl) a is

end Arena

namespace Index

lemma fst_add (i : Index) (call : RuleCall) : (i.add call).1 = i.insertAll call.insertions := by
  rw [← call.flatMap_insertions_ready]
  exact (addsReady.state i call).trans (i.addRules_eq_insertAll call.ready.1)

lemma performAll_eq (i : Index) (calls : List IndexCall) :
    i.performAll calls = i.insertAll (calls.flatMap IndexCall.insertions) := by
  rw [performAll, insertAll, List.foldl_flatMap]
  congr 1
  funext i call
  cases call with
  | insert attributes t s => rfl
  | add call => exact i.fst_add call

lemma issued_insertAll (i : Index) (is : List Insertion) :
    (i.insertAll is).issued = i.issued + Insertion.count is :=
  Insertion.issued_foldl issued (fun _ _ => rfl) i is

end Index

namespace Cascade

/-- What the selectors hold, in the order of the rules. -/
def rows (c : Cascade) : List (List Declaration) := c.rules.flatten.map (·.declarations)

lemma addAll_eq (c : Cascade) (calls : List RuleCall) :
    c.addAll calls = c.addRules (calls.flatMap fun call => call.ready.1) := by
  rw [addAll, addRules, List.foldl_flatMap]
  congr 1
  funext c call
  exact addsReady.state c call

/-- Each selector starts a row of its own. -/
lemma stamped_stampAll {rows : List (List Declaration)} {issued : ℕ} (h : Stamped rows issued)
    (is : List Insertion) :
    Stamped (rows ++ (Insertion.stampAll issued is).map (·.declarations)) (issued + Insertion.count is) := by
  induction is generalizing rows issued with
  | nil => simpa [Insertion.stampAll] using h
  | cons s is ih =>
    let ds := Declaration.stamp s.specificity.priority issued s.attributes
    have hgrown : Grown rows (rows ++ [ds]) ds := ⟨[], rows, 1, List.perm_append_comm, List.perm_append_comm⟩
    have hrest := ih (h.grow hgrown)
    rwa [List.append_assoc, Nat.add_assoc] at hrest

lemma stamped_addRules {c : Cascade} (h : Stamped c.rows c.issued) (rs : List Rule) :
    Stamped (c.addRules rs).rows (c.addRules rs).issued := by
  rw [rows, flatten_addRules, List.map_append, issued_addRules]
  exact stamped_stampAll h _

end Cascade

/-- After any calls, with those among them that fail, the orders of all declarations are the numbers below
the count of stamps, each once, and increase at every node; and stamps were taken for what was put under
selectors and for nothing else. A call that fails next leaves what the rules before the fault leave, for
the cascade just as for the index. -/
theorem stamped_after_calls (calls : List IndexCall) (ruleCalls : List RuleCall) :
    (let a := Arena.empty.performAll calls;
      Stamped a.rows a.issued ∧ a.declarationCount = a.issued ∧
        a.issued = Insertion.count (calls.flatMap IndexCall.insertions) ∧ FailsCleanly Arena.add a) ∧
    (let i := Index.empty.performAll calls;
      Stamped i.rows i.issued ∧ i.declarationCount = i.issued ∧
        i.issued = Insertion.count (calls.flatMap IndexCall.insertions) ∧ FailsCleanly Index.add i) ∧
    (let c := Cascade.empty.addAll ruleCalls;
      Stamped c.rows c.issued ∧
        c.issued = Insertion.count (ruleCalls.flatMap RuleCall.insertions) ∧ FailsCleanly Cascade.add c) := by
  refine ⟨?_, ?_, ?_⟩
  · have hstamped := (Arena.kept_empty.insertAll (calls.flatMap IndexCall.insertions)).stamped
    dsimp only
    rw [Arena.performAll_eq, Arena.declarationCount_eq]
    refine ⟨hstamped, hstamped.length_flatten, ?_, Arena.addsReady.failsCleanly _⟩
    rw [Arena.issued_insertAll]
    exact Nat.zero_add _
  · have hstamped := Index.stamped_insertAll Index.stamped_empty (calls.flatMap IndexCall.insertions)
    dsimp only
    rw [Index.performAll_eq, Index.declarationCount_eq]
    refine ⟨hstamped, hstamped.length_flatten, ?_, Index.addsReady.failsCleanly _⟩
    rw [Index.issued_insertAll]
    exact Nat.zero_add _
  · have hempty : Stamped Cascade.empty.rows Cascade.empty.issued :=
      ⟨.refl _, fun _ _ => rfl, by simp [Cascade.rows, Cascade.empty]⟩
    dsimp only
    refine ⟨?_, ?_, Cascade.addsReady.failsCleanly _⟩
    · rw [Cascade.addAll_eq]
      exact Cascade.stamped_addRules hempty _
    · rw [Cascade.addAll_eq, Cascade.issued_addRules, List.flatMap_assoc]
      simp only [RuleCall.flatMap_insertions_ready]
      exact Nat.zero_add _

/-- A stylesheet that stops at its second rule and a rule that fails: the two selectors of the rule before
have taken the stamps 0 and 1, and what is put under a selector later takes the next one. -/
theorem stamped_after_calls_stopped :
    let ready : StyleRule := ⟨[⟨[.className "a"], ⟨0, 1, 0⟩, ".a"⟩, ⟨[.typeName "b"], ⟨0, 0, 1⟩, "b"⟩],
      [⟨"color", "red", false⟩], ⟨1, 1, 0⟩⟩
    let failing : StyleRule := ⟨[⟨[.className "a"], ⟨0, 1, 0⟩, ".a"⟩,
      ⟨[.pseudoElement "before"], ⟨0, 0, 1⟩, "::before"⟩], [⟨"color", "red", false⟩], ⟨2, 1, 9⟩⟩
    let calls : List IndexCall := [.add (.stylesheet .empty ⟨[], [ready, failing, ready]⟩),
      .add (.rule .empty failing), .insert [⟨"color", .ofString "blue"⟩] ⟨.universal, []⟩ ⟨0, 0, 0⟩]
    (Arena.empty.performAll calls).issued = 3 ∧
      Stamped (Arena.empty.performAll calls).rows (Arena.empty.performAll calls).issued := by
  intro ready failing calls
  exact ⟨by decide +kernel, (stamped_after_calls calls []).1.1⟩

end Stylebook
