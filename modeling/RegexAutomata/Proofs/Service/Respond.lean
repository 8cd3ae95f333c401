/-
Responses to posted values.

A value that is posted to an endpoint gets an answer, or the report of the first check that it does
not pass; nothing else can happen to it.

* `respond_of_posts`, `respondToValue_of_error` — the response is made of the endpoint's outcome;
* `respond_decided` — so the checks decide the response, and the endpoints agree.
-/
import RegexAutomata.Proofs.Service.Endpoint
import RegexAutomata.Service.Respond

namespace RegexAutomata

namespace Service

open Json (Value)

/-! ### Responses -/

def Response.status : Response → Nat
  | .json status _ => status
  | .drawing _ => 200
  | .methodNotAllowed => 405
  | .movedTo _ => 301
  | .notFound => 404

/-- A request that posts a value to an endpoint. -/
structure Posts (settings : Settings) (endpoint : Endpoint) (v : Value) (request : Request) :
    Prop where
  path : ∃ path, (path, endpoint) ∈ Endpoint.routes ∧ request.target.path = Utf8.encode path
  method : request.method.flatMap capital = allowedMethod
  body : readBody settings request.body = .ok v

/-- What is wrong with the expression, if that is the reason. -/
def Refusal.parseError? : Refusal → Option Regex.ParseError
  | parse e => some e
  | _ => none

/-- A body reports a refusal: its message, and the kind and the position of an error in the
expression. -/
structure Refusal.IsTold (r : Refusal) (body : Value) : Prop where
  error : body.member? "error" = some (.string r.message)
  kind : body.member? "kind" = r.parseError?.map fun e => .string e.kind.name
  position : body.member? "position" = r.parseError?.map fun e => .integer e.position

theorem exists_refuse (r : Refusal) : ∃ body, refuse r = .json 400 body ∧ r.IsTold body := by
  cases r <;> exact ⟨_, rfl, rfl, rfl, rfl⟩

variable {settings : Settings} {endpoint : Endpoint} {v : Value} {request : Request}

/-- The paths of the endpoints are known. -/
theorem Endpoint.find?_encode {path : Text} (h : (path, endpoint) ∈ routes) :
    find? (Utf8.encode path) = some (path, endpoint) := by
  simp only [routes, List.mem_cons, List.not_mem_nil, or_false, Prod.mk.injEq] at h
  rcases h with ⟨rfl, rfl⟩ | ⟨rfl, rfl⟩ | ⟨rfl, rfl⟩ | ⟨rfl, rfl⟩ <;> decide +kernel

theorem respond_of_posts (h : Posts settings endpoint v request) :
    respond settings request = respondToValue settings endpoint v := by
  obtain ⟨path, hroute, hpath⟩ := h.path
  rw [respond, hpath, Endpoint.find?_encode hroute]
  dsimp only
  rw [if_neg (not_not.mpr h.method), h.body]

/-- A response is successful only to a value that is posted. -/
theorem exists_posts_of_status {path : Text} (hroute : (path, endpoint) ∈ Endpoint.routes)
    (hpath : request.target.path = Utf8.encode path)
    (hstatus : (respond settings request).status = 200) :
    ∃ v, Posts settings endpoint v request := by
  rw [respond, hpath, Endpoint.find?_encode hroute] at hstatus
  dsimp only at hstatus
  by_cases hmethod : request.method.flatMap capital = allowedMethod
  · rw [if_neg (not_not.mpr hmethod)] at hstatus
    cases hbody : readBody settings request.body with
    | ok v => exact ⟨v, ⟨path, hroute, hpath⟩, hmethod, hbody⟩
    | error e =>
      rw [hbody] at hstatus
      cases e with
      | inl f => simp [Response.status] at hstatus
      | inr r =>
        obtain ⟨body, hrefuse, -⟩ := exists_refuse r
        dsimp only at hstatus
        rw [hrefuse] at hstatus
        simp [Response.status] at hstatus
  · rw [if_pos hmethod] at hstatus
    simp [Response.status] at hstatus

theorem status_respondToValue {answer : Answer}
    (h : endpoint.outcome settings v = .ok answer) :
    (respondToValue settings endpoint v).status = 200 := by
  rw [Endpoint.outcome] at h
  rw [respondToValue, h]
  cases answer <;> rfl

theorem respondToValue_of_error {r : Refusal} (h : endpoint.outcome settings v = .error r) :
    respondToValue settings endpoint v = refuse r := by
  rw [Endpoint.outcome] at h
  rw [respondToValue, h]

/-- Where an answer is made of the automaton of the expression, a value that is answered has
content, and its expression has an automaton. -/
theorem exists_automaton_of_status {body : Content → Nfa → Value}
    (hanswer : ∀ content, endpoint.answer content =
      Endpoint.automaton content >>= fun n => pure (.json (body content n)))
    (h : Posts settings endpoint v request) (hstatus : (respond settings request).status = 200) :
    ∃ content n, Content.ofValue settings v = .ok content ∧
      Regex.toNfa content.regex content.alphabet = .ok n ∧
      respond settings request = .json 200 (body content n) := by
  rw [respond_of_posts h] at hstatus ⊢
  cases houtcome : endpoint.outcome settings v with
  | error r =>
    obtain ⟨body, hrefuse, -⟩ := exists_refuse r
    rw [respondToValue_of_error houtcome, hrefuse] at hstatus
    simp [Response.status] at hstatus
  | ok answer =>
    obtain ⟨content, hcontent, hok⟩ := exists_of_bind_eq_ok houtcome
    rw [hanswer] at hok
    obtain ⟨n, hn, hbody⟩ := exists_of_bind_eq_ok hok
    refine ⟨content, n, hcontent, Endpoint.toNfa_of_automaton hn, ?_⟩
    cases hbody
    rw [Endpoint.outcome] at houtcome
    rw [respondToValue, houtcome]

/-- The check of the grammar is the only one whose report has a kind and a position. -/
theorem Check.Reports.parseError?_isSome_iff {check : Check} {r : Refusal}
    (h : check.Reports settings v r) : r.parseError?.isSome ↔ check = .grammar := by
  cases h <;> simp [Refusal.parseError?]

/-- A response that is no success is the report of the first check that the value does not pass. -/
theorem exists_first_of_status (hv : v.Encodable) (h : Posts settings endpoint v request)
    (hstatus : (respond settings request).status ≠ 200) :
    ∃ before check after r body, endpoint.checks = before ++ check :: after ∧
      (∀ c ∈ before, c.Passes settings v) ∧ ¬check.Passes settings v ∧
      check.Reports settings v r ∧ respond settings request = .json 400 body ∧ r.IsTold body := by
  rw [respond_of_posts h] at hstatus ⊢
  cases houtcome : endpoint.outcome settings v with
  | ok answer => exact absurd (status_respondToValue houtcome) hstatus
  | error r =>
    obtain ⟨before, check, after, hchecks, hbefore, hfirst, hreports⟩ :=
      (Endpoint.decided_outcome settings hv endpoint).exists_first_of_error houtcome
    obtain ⟨body, hbody, htold⟩ := exists_refuse r
    rw [respondToValue_of_error houtcome]
    exact ⟨before, check, after, r, body, hchecks, hbefore, hfirst, hreports, hbody, htold⟩

/-- A success means that the value passes all checks of the endpoint. -/
theorem status_eq_iff (hv : v.Encodable) (h : Posts settings endpoint v request) :
    (respond settings request).status = 200 ↔
      ∀ check ∈ endpoint.checks, check.Passes settings v := by
  rw [respond_of_posts h, ← (Endpoint.decided_outcome settings hv endpoint).exists_ok_iff]
  cases houtcome : endpoint.outcome settings v with
  | ok answer => exact iff_of_true (status_respondToValue houtcome) ⟨answer, rfl⟩
  | error r =>
    obtain ⟨body, hbody, -⟩ := exists_refuse r
    rw [respondToValue_of_error houtcome, hbody]
    simp [Response.status]

/-- Whatever value without surrogates is posted, and however long expressions may be: the response
is a success if the value passes the checks of the endpoint, and otherwise has the status 400 and
reports the first check that it does not pass, with a kind and a position exactly if that is the
grammar, in which groups nest at most `maxDepth` deep. If the choice of an automaton passes its
check, all endpoints are successful or all respond with the same body. No edge is refused on the way
through the expression, and the subset construction comes to its end. -/
theorem respond_decided (settings : Settings) {v : Value} (hv : v.Encodable) :
    (∀ endpoint request, Posts settings endpoint v request →
      ((respond settings request).status = 200 ↔
        ∀ check ∈ endpoint.checks, check.Passes settings v) ∧
      ((respond settings request).status ≠ 200 → ∃ before check after r body,
        endpoint.checks = before ++ check :: after ∧ (∀ c ∈ before, c.Passes settings v) ∧
        ¬check.Passes settings v ∧ check.Reports settings v r ∧
        respond settings request = .json 400 body ∧ r.IsTold body ∧
        ((body.member? "kind").isSome ↔ check = .grammar) ∧
        ((body.member? "position").isSome ↔ check = .grammar))) ∧
    (∀ endpoint endpoint' request request', Posts settings endpoint v request →
      Posts settings endpoint' v request' →
      (endpoint = .exportDot ∨ endpoint' = .exportDot → Check.automaton.Passes settings v) →
      (respond settings request).status = 200 ∧ (respond settings request').status = 200 ∨
        ∃ body, respond settings request = .json 400 body ∧
          respond settings request' = .json 400 body) ∧
    ∀ t, v.member? "regex" = some (.string t) →
      let read := Regex.parseInto t (.empty (alphabetIn v))
      Regex.toNfa t (alphabetIn v) = read.1.map (fun _ => read.2) ∧
      (∃ m, Nfa.Builds (.empty (alphabetIn v)) m ∧
        ∃ start finish, read.2 = { m with start, finish }) ∧
      (Dfa.Subsets.complete read.2 (alphabetIn v).toList).queue = [] := by
  refine ⟨?_, ?_, ?_⟩
  · intro endpoint request h
    refine ⟨status_eq_iff hv h, ?_⟩
    intro hstatus
    obtain ⟨before, check, after, r, body, hchecks, hbefore, hfirst, hreports, hbody, htold⟩ :=
      exists_first_of_status hv h hstatus
    refine ⟨before, check, after, r, body, hchecks, hbefore, hfirst, hreports, hbody, htold, ?_, ?_⟩
    · rw [htold.kind, Option.isSome_map]
      exact hreports.parseError?_isSome_iff
    · rw [htold.position, Option.isSome_map]
      exact hreports.parseError?_isSome_iff
  · intro endpoint endpoint' request request' h h' hautomaton
    rw [respond_of_posts h, respond_of_posts h']
    -- with a good choice of an automaton, the same checks are left for both
    have hdecided := Endpoint.decided_outcome_of_passes hv fun heq => hautomaton (.inl heq)
    have hdecided' := Endpoint.decided_outcome_of_passes hv fun heq => hautomaton (.inr heq)
    rcases hdecided.agree hdecided' with ⟨a, b, ha, hb⟩ | ⟨r, hr, hr'⟩
    · exact .inl ⟨status_respondToValue ha, status_respondToValue hb⟩
    · obtain ⟨body, hbody, -⟩ := exists_refuse r
      rw [respondToValue_of_error hr, respondToValue_of_error hr']
      exact .inr ⟨body, hbody, hbody⟩
  · intro t _ read
    have hread : read.2.WellFormed := Regex.wellFormed_parseInto (.empty _) t
    exact ⟨Regex.toNfa_eq_map_parseInto t _, Regex.exists_builds_parseInto t _,
      (Dfa.Subsets.run_complete hread _).2⟩

/-- A value with inputs and without an alphabet is good for a simulation and for a drawing. -/
theorem respond_decided_star :
    let v : Value := .object [("regex", .string "(a*b)*"), ("inputs", .array [.string "ab"])]
    let request (path : String) : Request :=
      ⟨⟨Utf8.encode path, []⟩, "POST",
        Utf8.encode "\x7b\"regex\": \"(a*b)*\", \"inputs\": [\"ab\"]\x7d"⟩
    v.Encodable ∧ Posts {} .simulate v (request "/api/simulate/") ∧
      Posts {} .exportDot v (request "/api/export-dot/") ∧
      (respond {} (request "/api/simulate/")).status = 200 ∧
      (respond {} (request "/api/export-dot/")).status = 200 := by
  intro v request
  have hread : readBody {} (request "").body = .ok v := by decide +kernel
  have hv : v.Encodable := by simp [v]
  have hsimulate : Posts {} .simulate v (request "/api/simulate/") :=
    ⟨⟨"/api/simulate/", by decide, rfl⟩, by decide, hread⟩
  have hdraw : Posts {} .exportDot v (request "/api/export-dot/") :=
    ⟨⟨"/api/export-dot/", by decide, rfl⟩, by decide, hread⟩
  have hpasses (check : Check) : check.Passes {} v := by
    cases check with
    | object => exact ⟨_, rfl⟩
    | regex => exact ⟨"(a*b)*", rfl⟩
    | length =>
      intro t ht
      cases ht
      decide
    | inputs => exact .inr ⟨["ab"], rfl⟩
    | alphabet => exact .inl rfl
    | automaton => exact .inl rfl
    | grammar =>
      intro t ht
      cases ht
      exact ⟨_, Regex.derives_star_of_star⟩
  obtain ⟨hresponds, -⟩ := respond_decided {} hv
  exact ⟨hv, hsimulate, hdraw, (hresponds _ _ hsimulate).1.mpr fun check _ => hpasses check,
    (hresponds _ _ hdraw).1.mpr fun check _ => hpasses check⟩

end Service

end RegexAutomata
