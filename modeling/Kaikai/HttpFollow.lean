import Kaikai.Http

namespace Kaikai.Http

open Kaikai.Decimal
open Kaikai.Str
open Kaikai.Text

structure RedirectPolicy where
  maxRedirects : Int
  follow3xx : List Int
  rewritePostToGetOn303 : Bool

def httpFailure (body : Str) : Response := ⟨0, [], body⟩

/-- A request whose URL parses is answered by the network, whose failures are responses too. -/
def request (answer : Response) (req : Request) : Response :=
  match parseUrl req.url with
  | .error e => httpFailure e
  | .ok _ => answer

/-- Absolute paths and network paths resolve against `orig`; the rest is taken as written. -/
def httpResolveRedirectUrl (origUrl loc : Str) : Str :=
  match parseUrl origUrl with
  | .error _ => loc
  | .ok u =>
      if startsWith loc (ascii "//") then u.scheme ++ ascii ":" ++ loc
      else if startsWith loc (ascii "/") then
        u.scheme ++ ascii "://" ++ u.host ++ ascii ":" ++ intToString u.port ++ loc
      else loc

def httpSameOrigin (source target : Str) : Bool :=
  match parseUrl source with
  | .error _ => false
  | .ok a =>
      match parseUrl target with
      | .error _ => false
      | .ok b => a.scheme = b.scheme ∧ a.port = b.port ∧ toLower a.host = toLower b.host

def httpRedirectHeader (h : HttpHeader) (sameOrigin : Bool) : Bool :=
  let name := toLower h.name
  let credential := name == ascii "authorization" || name == ascii "proxy-authorization" ||
    name == ascii "cookie" || name == ascii "cookie2"
  name != ascii "host" && (sameOrigin || !credential)

def httpRedirectHeaders (hs : List HttpHeader) (sameOrigin : Bool) : List HttpHeader :=
  hs.filter fun h => httpRedirectHeader h sameOrigin

def httpRedirectMethod (orig : Request) (status : Int) (policy : RedirectPolicy) : Str :=
  if orig.method = ascii "POST" ∧
      (status = 301 ∨ status = 302 ∨ (status = 303 ∧ policy.rewritePostToGetOn303 = true)) then
    ascii "GET"
  else orig.method

def httpBuildNextRequest (orig : Request) (status : Int) (loc : Str) (policy : RedirectPolicy) :
    Request :=
  let method := httpRedirectMethod orig status policy
  let newUrl := httpResolveRedirectUrl orig.url loc
  { method := method
    url := newUrl
    headers := httpRedirectHeaders orig.headers (httpSameOrigin orig.url newUrl)
    body := if method = ascii "GET" then [] else orig.body }

/-- The requests issued so far and the answer, none while the chain goes on. -/
structure Followed where
  issued : List Request
  result : Option (Except Str Response)

/-- `http_follow_loop` for at most `fuel` calls, against the answers of a chain of servers. -/
def httpFollowLoop (policy : RedirectPolicy) :
    Nat → (Nat → Response) → Request → Int → Followed
  | 0, _, _, _ => ⟨[], none⟩
  | fuel + 1, answers, req, nRedirects =>
      if nRedirects > policy.maxRedirects then
        ⟨[], some (.error (ascii "too many redirects (max " ++ intToString policy.maxRedirects ++
          ascii ")"))⟩
      else
        let resp := request (answers 0) req
        if resp.status ∈ policy.follow3xx then
          match headerLookup resp.headers (ascii "Location") with
          | none =>
              ⟨[req], some (.error (ascii "redirect missing Location header at status " ++
                intToString resp.status))⟩
          | some loc =>
              let rest := httpFollowLoop policy fuel (fun k => answers (k + 1))
                (httpBuildNextRequest req resp.status loc policy) (Word64.add nRedirects 1)
              ⟨req :: rest.issued, rest.result⟩
        else ⟨[req], some (.ok resp)⟩

def follow (fuel : Nat) (answers : Nat → Response) (req : Request) (policy : RedirectPolicy) :
    Followed :=
  httpFollowLoop policy fuel answers req 0

/-- Scheme, host in any letter case and effective port. -/
def origin (url : Str) : Option (Str × Str × Int) :=
  match parseUrl url with
  | .error _ => none
  | .ok u => some (u.scheme, toLower u.host, u.port)

/-- The same text, or two URLs that parse to one origin. -/
def SameOrigin (a b : Str) : Prop := a = b ∨ (origin a).isSome ∧ origin a = origin b

theorem SameOrigin.trans {a b c : Str} (h : (origin a).isSome ∧ origin a = origin b)
    (h' : SameOrigin b c) : SameOrigin a c := by
  rcases h' with rfl | ⟨-, h'⟩
  · exact Or.inr h
  · exact Or.inr ⟨h.1, h.2.trans h'⟩

def IsCredential (h : HttpHeader) : Prop :=
  toLower h.name ∈ [ascii "authorization", ascii "proxy-authorization", ascii "cookie",
    ascii "cookie2"]

instance (h : HttpHeader) : Decidable (IsCredential h) :=
  inferInstanceAs (Decidable (_ ∈ _))

def IsHost (h : HttpHeader) : Prop := toLower h.name = ascii "host"

instance (h : HttpHeader) : Decidable (IsHost h) := inferInstanceAs (Decidable (_ = _))

/-- The headers that every hop carries. -/
def others (hs : List HttpHeader) : List HttpHeader :=
  hs.filter fun h => ¬ IsCredential h ∧ ¬ IsHost h

/-- One request redirects to the next. -/
def Redirects (policy : RedirectPolicy) (a b : Request) : Prop :=
  ∃ status loc, b = httpBuildNextRequest a status loc policy

theorem httpSameOrigin_iff {a b : Str} :
    httpSameOrigin a b = true ↔ (origin a).isSome ∧ origin a = origin b := by
  unfold httpSameOrigin origin
  cases parseUrl a with
  | error e => simp
  | ok u =>
      cases parseUrl b with
      | error e => simp
      | ok v => simp [and_comm]

theorem httpRedirectHeader_iff {h : HttpHeader} {same : Bool} :
    httpRedirectHeader h same = true ↔ ¬ IsHost h ∧ (same = true ∨ ¬ IsCredential h) := by
  simp [httpRedirectHeader, IsHost, IsCredential, and_assoc]

/-- What one redirect does to the headers. -/
structure Drops (a b : Request) : Prop where
  sublist : b.headers.Sublist a.headers
  host : ∀ h ∈ b.headers, ¬ IsHost h
  credential : ∀ h ∈ b.headers, IsCredential h → (origin a.url).isSome ∧ origin a.url = origin b.url
  kept : others b.headers = others a.headers

theorem Redirects.drops {policy : RedirectPolicy} {a b : Request} (h : Redirects policy a b) :
    Drops a b := by
  obtain ⟨status, loc, rfl⟩ := h
  constructor
  · exact List.filter_sublist
  · intro h hmem
    exact (httpRedirectHeader_iff.1 (List.mem_filter.1 hmem).2).1
  · intro h hmem hcred
    rcases (httpRedirectHeader_iff.1 (List.mem_filter.1 hmem).2).2 with hsame | hother
    · exact httpSameOrigin_iff.1 hsame
    · exact absurd hcred hother
  · rw [httpBuildNextRequest, httpRedirectHeaders, others, List.filter_filter, others]
    apply List.filter_congr
    intro h _
    rw [Bool.eq_iff_iff, Bool.and_eq_true, decide_eq_true_iff, httpRedirectHeader_iff]
    tauto

/-- What a whole run carries from the first request on: hops are numbered from zero. -/
structure Carries (first : Request) (issued : List Request) : Prop where
  credential : ∀ (k : Nat) (r : Request), issued[k]? = some r → (∃ h ∈ r.headers, IsCredential h) →
    ∀ j : Nat, j ≤ k → ∀ r' : Request, issued[j]? = some r' → SameOrigin first.url r'.url
  shrinks : issued.Pairwise fun earlier later => later.headers.Sublist earlier.headers
  host : ∀ r ∈ issued.tail, ∀ h ∈ r.headers, ¬ IsHost h
  kept : ∀ r ∈ issued, others r.headers = others first.headers

theorem Carries.nil (first : Request) : Carries first [] :=
  ⟨by simp, List.Pairwise.nil, by simp, by simp⟩

theorem Carries.single (first : Request) : Carries first [first] := by
  constructor
  · intro k r hk _ j hj r' hj'
    rw [List.mem_singleton.1 (List.mem_of_getElem? hj')]
    exact Or.inl rfl
  · exact List.pairwise_singleton _ _
  · simp
  · intro r hr
    rw [List.mem_singleton.1 hr]

theorem Carries.cons {first next : Request} {rest : List Request} (hdrops : Drops first next)
    (h : Carries next (next :: rest)) : Carries first (first :: next :: rest) := by
  have hsub : ∀ r ∈ next :: rest, r.headers.Sublist next.headers := by
    intro r hr
    rcases List.mem_cons.1 hr with rfl | hr
    · exact List.Sublist.refl _
    · exact List.rel_of_pairwise_cons h.shrinks hr
  constructor
  · intro k r hk hcred j hj r' hj'
    cases j with
    | zero =>
        rw [← Option.some.inj hj']
        exact Or.inl rfl
    | succ j =>
        cases k with
        | zero => exact absurd hj (Nat.not_succ_le_zero j)
        | succ k =>
            obtain ⟨c, hc, hcc⟩ := hcred
            have hr : r ∈ next :: rest := List.mem_of_getElem? hk
            have hstep := hdrops.credential c ((hsub r hr).subset hc) hcc
            exact SameOrigin.trans hstep
              (h.credential k r hk ⟨c, hc, hcc⟩ j (Nat.le_of_succ_le_succ hj) r' hj')
  · apply List.Pairwise.cons ?_ h.shrinks
    intro r hr
    exact (hsub r hr).trans hdrops.sublist
  · intro r hr c hc
    exact hdrops.host c ((hsub r hr).subset hc)
  · intro r hr
    rcases List.mem_cons.1 hr with rfl | hr
    · rfl
    · exact (h.kept r hr).trans hdrops.kept

theorem carries_of_isChain {policy : RedirectPolicy} {first : Request} {rest : List Request}
    (h : List.IsChain (Redirects policy) (first :: rest)) : Carries first (first :: rest) := by
  induction rest generalizing first with
  | nil => exact Carries.single first
  | cons next rest ih =>
      obtain ⟨hstep, hrest⟩ := List.isChain_cons_cons.1 h
      exact Carries.cons hstep.drops (ih hrest)

theorem issued_isChain (policy : RedirectPolicy) (fuel : Nat) (answers : Nat → Response)
    (req : Request) (n : Int) :
    (httpFollowLoop policy fuel answers req n).issued = [] ∨
      ∃ rest, (httpFollowLoop policy fuel answers req n).issued = req :: rest ∧
        List.IsChain (Redirects policy) (req :: rest) := by
  induction fuel generalizing answers req n with
  | zero => exact Or.inl rfl
  | succ fuel ih =>
      rw [httpFollowLoop]
      dsimp only
      split_ifs with hover hfollow
      · exact Or.inl rfl
      · right
        cases hloc : headerLookup (request (answers 0) req).headers (ascii "Location") with
        | none => exact ⟨[], rfl, List.isChain_singleton req⟩
        | some loc =>
            have hstep : Redirects policy req
              (httpBuildNextRequest req (request (answers 0) req).status loc policy) :=
              ⟨_, _, rfl⟩
            refine ⟨_, rfl, ?_⟩
            rcases ih (fun k => answers (k + 1))
              (httpBuildNextRequest req (request (answers 0) req).status loc policy)
              (Word64.add n 1) with hnil | ⟨rest, hrest, hchain⟩
            · rw [hnil]
              exact List.isChain_singleton req
            · rw [hrest]
              exact List.isChain_cons_cons.2 ⟨hstep, hchain⟩
      · exact Or.inr ⟨[], rfl, List.isChain_singleton req⟩

theorem issued_length_le (policy : RedirectPolicy) (hmax : policy.maxRedirects < 2 ^ 63 - 1)
    (fuel : Nat) (answers : Nat → Response) (req : Request) {n : Int} (hn : 0 ≤ n)
    (hle : n ≤ policy.maxRedirects + 1) :
    ((httpFollowLoop policy fuel answers req n).issued.length : Int) ≤
      policy.maxRedirects + 1 - n := by
  induction fuel generalizing answers req n with
  | zero => simpa [httpFollowLoop] using hle
  | succ fuel ih =>
      rw [httpFollowLoop]
      dsimp only
      split_ifs with hover hfollow
      · simpa using hle
      · cases hloc : headerLookup (request (answers 0) req).headers (ascii "Location") with
        | none =>
            simp only [List.length_singleton, Nat.cast_one]
            omega
        | some loc =>
            have hadd : Word64.add n 1 = n + 1 := Word64.add_eq (by omega) (by omega)
            have hrest := ih (fun k => answers (k + 1))
              (httpBuildNextRequest req (request (answers 0) req).status loc policy)
              (n := n + 1) (by omega) (by omega)
            simp only [hadd, List.length_cons, Nat.cast_add, Nat.cast_one]
            omega
      · simp only [List.length_singleton, Nat.cast_one]
        omega

theorem carries_issued (fuel : Nat) (answers : Nat → Response) (req : Request)
    (policy : RedirectPolicy) : Carries req (follow fuel answers req policy).issued := by
  rcases issued_isChain policy fuel answers req 0 with hnil | ⟨rest, hrest, hchain⟩
  · rw [follow, hnil]
    exact Carries.nil req
  · rw [follow, hrest]
    exact carries_of_isChain hchain

theorem issued_length_le_max (policy : RedirectPolicy) (hmax : policy.maxRedirects < 2 ^ 63 - 1)
    (fuel : Nat) (answers : Nat → Response) (req : Request) :
    ((follow fuel answers req policy).issued.length : Int) ≤ max 0 (policy.maxRedirects + 1) := by
  by_cases hneg : policy.maxRedirects + 1 < 0
  · have hover : 0 > policy.maxRedirects := by omega
    cases fuel with
    | zero => simp [follow, httpFollowLoop]
    | succ fuel => simp [follow, httpFollowLoop, if_pos hover]
  · have hle := issued_length_le policy hmax fuel answers req (Int.le_refl 0) (by omega)
    rw [follow]
    omega

/-- Credentials stay within the origin of the first request, over any chain of answers, whose number
the limit bounds unless it is the greatest one. -/
theorem follow_carries (fuel : Nat) (answers : Nat → Response) (req : Request)
    (policy : RedirectPolicy) :
    (policy.maxRedirects < 2 ^ 63 - 1 →
      ((follow fuel answers req policy).issued.length : Int) ≤ max 0 (policy.maxRedirects + 1)) ∧
        Carries req (follow fuel answers req policy).issued :=
  ⟨fun hmax => issued_length_le_max policy hmax fuel answers req,
    carries_issued fuel answers req policy⟩

/-- Every answer sends the client back to the same URL. -/
def bounce : Response := ⟨301, [⟨ascii "Location", ascii "http://a/"⟩], []⟩

def bounced : Request := ⟨ascii "GET", ascii "http://a/", [], []⟩

theorem follow_carries_bounced :
    ((follow 9 (fun _ => bounce) bounced ⟨3, [301], true⟩).issued.length : Int) ≤ max 0 (3 + 1) ∧
      Carries bounced (follow 9 (fun _ => bounce) bounced ⟨3, [301], true⟩).issued :=
  (follow_carries 9 (fun _ => bounce) bounced ⟨3, [301], true⟩).imp_left fun h => h (by decide)

theorem bounce_unbounded (fuel : Nat) {n : Int} (hn : Word64.InRange n) :
    (httpFollowLoop ⟨2 ^ 63 - 1, [301], true⟩ fuel (fun _ => bounce) bounced n).issued.length =
      fuel := by
  induction fuel generalizing n with
  | zero => rfl
  | succ fuel ih =>
      have hnot : ¬ n > 2 ^ 63 - 1 := by
        have hhigh := hn.2
        omega
      have hanswer : request bounce bounced = bounce := rfl
      have hnext : httpBuildNextRequest bounced 301 (ascii "http://a/") ⟨2 ^ 63 - 1, [301], true⟩ =
        bounced := rfl
      have hloc : headerLookup bounce.headers (ascii "Location") = some (ascii "http://a/") := rfl
      have hstatus : bounce.status ∈ [(301 : Int)] := by decide
      rw [httpFollowLoop]
      simp only [if_neg hnot, hanswer, hloc, if_pos hstatus, List.length_cons]
      exact congrArg (· + 1) (ih (Word64.wrap_inRange _))

/-- A limit below minus one is not the number of requests less one, and the greatest limit
bounds nothing. -/
theorem follow_count_exceeds :
    ¬ (((follow 1 (fun _ => bounce) bounced ⟨-2, [301], true⟩).issued.length : Int) ≤ -2 + 1) ∧
    ¬ ∀ fuel, ((follow fuel (fun _ => bounce) bounced ⟨2 ^ 63 - 1, [301], true⟩).issued.length :
      Int) ≤ 2 ^ 63 - 1 + 1 := by
  constructor
  · decide
  · intro h
    have hcount := h (2 ^ 63 + 1)
    rw [follow, bounce_unbounded _ (by decide)] at hcount
    omega

end Kaikai.Http
