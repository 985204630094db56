import Kaikai.Http

namespace Kaikai.Http

open Kaikai.Str
open Kaikai.Text

/-- The received bytes, newest first. -/
def httpRecvAllPrepend (chunk acc : Str) : Str :=
  match chunk with
  | [] => acc
  | b :: rest => httpRecvAllPrepend rest (b :: acc)

/-- The peer closed: only a request whose length is unusable is still taken. -/
def httpFinishOnClose (accRev : Str) : Except Str Request :=
  match parseRequest accRev.reverse with
  | .ok r =>
      if httpContentLength r.headers = none then .ok r
      else .error (ascii "read_request: peer closed before request complete")
  | .error _ => .error (ascii "read_request: peer closed before request complete")

/-- The request, once the buffer holds a complete one. -/
def httpRequestReady (accRev : Str) : Option Request :=
  match httpParseRequestUnframed accRev.reverse with
  | .error _ => none
  | .ok r =>
      match headerLookup r.headers (ascii "Content-Length") with
      | none => some r
      | some v =>
          match stringToInt v with
          | some n =>
              if (r.body.length : Int) ≥ n then some (httpWithBody r (httpClampBody r.body n))
              else none
          | none => none

/-- `http_read_request_loop` and `http_read_more` against the results of successive
`recv(conn, 4096)`; a connection without further results is closed. -/
def httpReadRequestLoop (maxBytes : Int) (recvs : List (Except Str Str)) (accRev : Str)
    (have' : Int) : Except Str Request :=
  if have' > maxBytes then
    .error (ascii "read_request: exceeded max_bytes=" ++ Decimal.intToString maxBytes)
  else
    match httpRequestReady accRev with
    | some req => .ok req
    | none =>
        match recvs with
        | [] => httpFinishOnClose accRev
        | .error e :: _ => .error (ascii "read_request: " ++ e)
        | .ok chunk :: rest =>
            if chunk = [] then httpFinishOnClose accRev
            else httpReadRequestLoop maxBytes rest (httpRecvAllPrepend chunk accRev)
              (Word64.add have' chunk.length)

def readRequest (recvs : List (Except Str Str)) (maxBytes : Int) : Except Str Request :=
  httpReadRequestLoop maxBytes recvs [] 0

/-- A way in which the network may cut a text. -/
structure Cut (b : Str) (chunks : List Str) : Prop where
  whole : chunks.flatten = b
  chunk : ∀ c ∈ chunks, c ≠ [] ∧ c.length ≤ 4096

/-- The results of `recv`: the chunks, then the close. -/
def received (chunks : List Str) : List (Except Str Str) := chunks.map .ok ++ [.ok []]

/-- The head of a request, up to its blank line, as a request with an empty body. -/
def requestHead (text : Str) : Except Str Request :=
  match stringSplit text crlf with
  | [] => .error (ascii "parse_request: empty header block")
  | start :: lines =>
      match httpParseRequestLine start with
      | .error e => .error e
      | .ok rl => httpBuildRequest ⟨start, lines, []⟩ rl

/-- The text opens with a well-formed head, whose blank line is at `i`. -/
structure HasHead (b : Str) (i : Nat) (head : Request) : Prop where
  found : stringFind b blankLine = some i
  parsed : requestHead (b.take i) = .ok head

/-- The request that a head and the bytes after its blank line make up, if they are enough. -/
def framed (head : Request) (body : Str) : Option Request :=
  match headerLookup head.headers (ascii "Content-Length") with
  | none => some (httpWithBody head body)
  | some v =>
      match stringToInt v with
      | some n =>
          if (body.length : Int) ≥ n then some (httpWithBody head (httpClampBody body n)) else none
      | none => none

theorem httpRecvAllPrepend_eq (chunk acc : Str) :
    httpRecvAllPrepend chunk acc = chunk.reverse ++ acc := by
  induction chunk generalizing acc with
  | nil => rfl
  | cons b rest ih => rw [httpRecvAllPrepend, ih, List.reverse_cons, List.append_assoc]; rfl

theorem httpAfter_eq (s : Str) (i : Nat) : httpAfter s i = s.drop i := by
  rw [httpAfter, stringSlice]
  apply List.take_of_length_le
  rw [List.length_drop]
  omega

theorem stringSlice_zero (s : Str) (i : Nat) : stringSlice s 0 i = s.take i := rfl

theorem httpWithBody_body (r : Request) (body : Str) : (httpWithBody r body).body = body := rfl

theorem httpWithBody_headers (r : Request) (body : Str) :
    (httpWithBody r body).headers = r.headers := rfl

theorem buildRequest_body (start : Str) (lines : List Str) (body : Str) (rl : HttpReqLine) :
    httpBuildRequest ⟨start, lines, body⟩ rl =
      (httpBuildRequest ⟨start, lines, []⟩ rl).map fun r => httpWithBody r body := by
  rw [httpBuildRequest, httpBuildRequest]
  cases httpParseHeaderLines lines (ascii "parse_request") <;> rfl

theorem unframed_eq (b : Str) {i : Nat} (h : stringFind b blankLine = some i) :
    httpParseRequestUnframed b =
      (requestHead (b.take i)).map fun r => httpWithBody r (b.drop (i + 4)) := by
  rw [httpParseRequestUnframed, httpSplitHead, h, requestHead]
  simp only [stringSlice_zero, httpAfter_eq]
  cases stringSplit (b.take i) crlf with
  | nil => rfl
  | cons start lines =>
      simp only
      cases httpParseRequestLine start with
      | error e => rfl
      | ok rl => exact buildRequest_body start lines (b.drop (i + 4)) rl

theorem unframed_iff {b : Str} {r : Request} :
    httpParseRequestUnframed b = .ok r ↔
      ∃ i head, HasHead b i head ∧ r = httpWithBody head (b.drop (i + 4)) := by
  constructor
  · intro h
    cases hfind : stringFind b blankLine with
    | none =>
        rw [httpParseRequestUnframed, httpSplitHead, hfind] at h
        cases h
    | some i =>
        rw [unframed_eq b hfind] at h
        cases hhead : requestHead (b.take i) with
        | error e =>
            rw [hhead] at h
            cases h
        | ok head =>
            rw [hhead] at h
            exact ⟨i, head, ⟨hfind, hhead⟩, (Except.ok.inj h).symm⟩
  · rintro ⟨i, head, ⟨hfind, hhead⟩, rfl⟩
    rw [unframed_eq b hfind, hhead]
    rfl

theorem HasHead.unique {b : Str} {i i' : Nat} {head head' : Request} (h : HasHead b i head)
    (h' : HasHead b i' head') : i = i' ∧ head = head' := by
  obtain rfl := Option.some.inj (h.found.symm.trans h'.found)
  exact ⟨rfl, Except.ok.inj (h.parsed.symm.trans h'.parsed)⟩

theorem HasHead.le {b : Str} {i : Nat} {head : Request} (h : HasHead b i head) :
    i + 4 ≤ b.length :=
  stringFind_end_le h.found

theorem HasHead.append {p b : Str} {i : Nat} {head : Request} (h : HasHead p i head)
    (hp : p <+: b) : HasHead b i head := by
  obtain ⟨t, rfl⟩ := hp
  have hle := h.le
  refine ⟨stringFind_append t h.found, ?_⟩
  rw [List.take_append_of_le_length (by omega)]
  exact h.parsed

theorem HasHead.take {p b : Str} {i : Nat} {head : Request} (h : HasHead b i head)
    (hp : p <+: b) (hle : i + 4 ≤ p.length) : HasHead p i head := by
  refine ⟨stringFind_of_isPrefix h.found hp hle, ?_⟩
  obtain ⟨t, rfl⟩ := hp
  have hparsed := h.parsed
  rw [List.take_append_of_le_length (by omega)] at hparsed
  exact hparsed

theorem ready_of_hasHead {p : Str} {i : Nat} {head : Request} (h : HasHead p i head) :
    httpRequestReady p.reverse = framed head (p.drop (i + 4)) := by
  rw [httpRequestReady, List.reverse_reverse, unframed_iff.2 ⟨i, head, h, rfl⟩]
  rfl

theorem ready_of_not_hasHead {p : Str} (h : ∀ i head, ¬ HasHead p i head) :
    httpRequestReady p.reverse = none := by
  rw [httpRequestReady, List.reverse_reverse]
  cases hparse : httpParseRequestUnframed p with
  | error e => rfl
  | ok r =>
      obtain ⟨i, head, hhead, -⟩ := unframed_iff.1 hparse
      exact absurd hhead (h i head)

theorem ready_isPrefix {p b : Str} {i : Nat} {head : Request} (h : HasHead b i head) (hp : p <+: b) :
    httpRequestReady p.reverse = if p.length < i + 4 then none else framed head (p.drop (i + 4)) := by
  split_ifs with hlt
  · apply ready_of_not_hasHead
    intro i' head' hhead
    obtain ⟨rfl, -⟩ := (hhead.append hp).unique h
    exact absurd hhead.le (by omega)
  · exact ready_of_hasHead (h.take hp (by omega))

theorem loop_step {maxBytes : Int} {p c : Str} {recvs : List (Except Str Str)} (hc : c ≠ [])
    (hle : ((p ++ c).length : Int) ≤ maxBytes) (hrange : maxBytes < 2 ^ 63)
    (hnone : httpRequestReady p.reverse = none) :
    httpReadRequestLoop maxBytes (.ok c :: recvs) p.reverse p.length =
      httpReadRequestLoop maxBytes recvs (p ++ c).reverse (p ++ c).length := by
  rw [List.length_append, Nat.cast_add] at hle
  have hover : ¬ (p.length : Int) > maxBytes := by omega
  have hcount : Word64.add p.length c.length = ((p ++ c).length : Int) := by
    rw [List.length_append, Nat.cast_add]
    exact Word64.add_eq (by omega) (by omega)
  rw [httpReadRequestLoop, if_neg hover, hnone]
  simp only [if_neg hc]
  rw [httpRecvAllPrepend_eq, ← List.reverse_append, hcount]

theorem loop_ready {maxBytes : Int} {p : Str} {recvs : List (Except Str Str)} {r : Request}
    (hle : (p.length : Int) ≤ maxBytes) (h : httpRequestReady p.reverse = some r) :
    httpReadRequestLoop maxBytes recvs p.reverse p.length = .ok r := by
  rw [httpReadRequestLoop.eq_def, if_neg (by omega), h]

theorem loop_eq {b : Str} {maxBytes : Int} (hle : (b.length : Int) ≤ maxBytes)
    (hrange : maxBytes < 2 ^ 63)
    (hready : ∀ p, p <+: b → httpRequestReady p.reverse = none ∨
      httpRequestReady p.reverse = httpRequestReady b.reverse)
    {chunks : List Str} {p : Str} (hb : p ++ chunks.flatten = b) (hne : ∀ c ∈ chunks, c ≠ []) :
    httpReadRequestLoop maxBytes (received chunks) p.reverse p.length =
      match httpRequestReady b.reverse with
      | some r => .ok r
      | none => httpFinishOnClose b.reverse := by
  induction chunks generalizing p with
  | nil =>
      rw [List.flatten_nil, List.append_nil] at hb
      subst hb
      rw [httpReadRequestLoop.eq_def, if_neg (by omega)]
      rfl
  | cons c cs ih =>
      have hp : p <+: b := ⟨(c :: cs).flatten, hb⟩
      cases hnow : httpRequestReady p.reverse with
      | some r =>
          have hwhole : httpRequestReady b.reverse = some r := by
            rcases hready p hp with hnone | heq
            · rw [hnone] at hnow
              cases hnow
            · rw [← heq, hnow]
          have hplen := hp.length_le
          rw [loop_ready (by omega) hnow, hwhole]
      | none =>
          have hb' : (p ++ c) ++ cs.flatten = b := by rw [List.append_assoc, ← List.flatten_cons, hb]
          have hlen : (p ++ c).length ≤ b.length := by
            rw [← hb']
            exact (List.prefix_append _ _).length_le
          rw [received, List.map_cons, List.cons_append,
            loop_step (hne c List.mem_cons_self) (by omega) hrange hnow]
          exact ih hb' fun c' hc' => hne c' (List.mem_cons_of_mem _ hc')

theorem loop_skip {maxBytes : Int} (hrange : maxBytes < 2 ^ 63) {chunks : List Str} {p : Str}
    {recvs : List (Except Str Str)} (hne : ∀ c ∈ chunks, c ≠ [])
    (hle : ((p ++ chunks.flatten).length : Int) ≤ maxBytes)
    (hnone : ∀ q, q <+: p ++ chunks.flatten → httpRequestReady q.reverse = none) :
    httpReadRequestLoop maxBytes (chunks.map .ok ++ recvs) p.reverse p.length =
      httpReadRequestLoop maxBytes recvs (p ++ chunks.flatten).reverse
        (p ++ chunks.flatten).length := by
  induction chunks generalizing p with
  | nil => rw [List.flatten_nil, List.append_nil]; rfl
  | cons c cs ih =>
      have hassoc : p ++ (c :: cs).flatten = (p ++ c) ++ cs.flatten := by
        rw [List.flatten_cons, List.append_assoc]
      rw [hassoc] at hle hnone ⊢
      have hlen : (p ++ c).length ≤ ((p ++ c) ++ cs.flatten).length :=
        (List.prefix_append _ _).length_le
      have hp : p <+: (p ++ c) ++ cs.flatten := by
        rw [List.append_assoc]
        exact List.prefix_append _ _
      rw [List.map_cons, List.cons_append,
        loop_step (hne c List.mem_cons_self) (by omega) hrange (hnone p hp)]
      exact ih (fun c' hc' => hne c' (List.mem_cons_of_mem _ hc')) hle hnone

/-- Every text can arrive byte by byte. -/
def singles (b : Str) : List Str := b.map fun x => [x]

theorem flatten_singles (b : Str) : (singles b).flatten = b := by
  induction b with
  | nil => rfl
  | cons x b ih => rw [singles, List.map_cons, List.flatten_cons, ← singles, ih]; rfl

theorem cut_singles (b : Str) : Cut b (singles b) := by
  refine ⟨flatten_singles b, ?_⟩
  intro c hc
  obtain ⟨x, -, rfl⟩ := List.mem_map.1 hc
  exact ⟨List.cons_ne_nil _ _, by simp⟩

/-- A complete request: a head, and the bytes that its `Content-Length` announces. -/
def Complete (p : Str) : Prop :=
  ∃ i head, HasHead p i head ∧
    ∀ v, headerLookup head.headers (ascii "Content-Length") = some v →
      ∃ n, stringToInt v = some n ∧ n ≤ (p.drop (i + 4)).length

structure ShortestComplete (b p : Str) : Prop where
  start : p <+: b
  complete : Complete p
  shortest : ∀ q, q <+: p → Complete q → q = p

/-- The answer does not depend on the cut, and it is the request that the shortest complete
prefix holds. -/
structure ReadsOnce (b : Str) (maxBytes : Int) : Prop where
  same : ∀ cs ds, Cut b cs → Cut b ds →
    readRequest (received cs) maxBytes = readRequest (received ds) maxBytes
  shortest : ∀ cs r, Cut b cs → readRequest (received cs) maxBytes = .ok r →
    ∃ p, ShortestComplete b p ∧ parseRequest p = .ok r
  empty : ∀ cs r, Cut b cs → readRequest (received cs) maxBytes = .ok r →
    headerLookup r.headers (ascii "Content-Length") = none → r.body = []
  exact : ∀ cs r v, Cut b cs → readRequest (received cs) maxBytes = .ok r →
    headerLookup r.headers (ascii "Content-Length") = some v →
      ∃ n, stringToInt v = some n ∧ r.body.length = n

/-- When a head opens the text, it announces a length, or nothing follows it. -/
def Announced (b : Str) : Prop :=
  ∀ i head, HasHead b i head →
    match headerLookup head.headers (ascii "Content-Length") with
    | none => b.length = i + 4
    | some v => ∃ n, stringToInt v = some n ∧ 0 ≤ n

theorem httpClampBody_eq (body : Str) {n : Int} : httpClampBody body n = body.take n.toNat := by
  rw [httpClampBody]
  split_ifs with hn
  · rw [Int.toNat_of_nonpos hn, List.take_zero]
  · rfl

theorem framed_eq_some_iff {head r : Request} {body : Str} :
    framed head body = some r ↔
      match headerLookup head.headers (ascii "Content-Length") with
      | none => r = httpWithBody head body
      | some v => ∃ n, stringToInt v = some n ∧ n ≤ body.length ∧
          r = httpWithBody head (body.take n.toNat) := by
  rw [framed]
  cases headerLookup head.headers (ascii "Content-Length") with
  | none => simp [eq_comm]
  | some v =>
      simp only
      cases stringToInt v with
      | none => simp
      | some n => simp [httpClampBody_eq, eq_comm]

theorem framed_prefix {head : Request} {v part body : Str} (hpart : part <+: body)
    (hv : headerLookup head.headers (ascii "Content-Length") = some v) :
    framed head part = none ∨ framed head part = framed head body := by
  cases hframed : framed head part with
  | none => exact Or.inl rfl
  | some r =>
      right
      symm
      have hspec := framed_eq_some_iff.1 hframed
      rw [hv] at hspec
      obtain ⟨n, hn, hle, rfl⟩ := hspec
      have hlen := hpart.length_le
      apply framed_eq_some_iff.2
      rw [hv]
      refine ⟨n, hn, by omega, ?_⟩
      obtain ⟨t, rfl⟩ := hpart
      rw [List.take_append_of_le_length (by omega)]

theorem ready_stable {b : Str} (h : Announced b) (p : Str) (hp : p <+: b) :
    httpRequestReady p.reverse = none ∨
      httpRequestReady p.reverse = httpRequestReady b.reverse := by
  by_cases hhead : ∃ i head, HasHead b i head
  · obtain ⟨i, head, hhead⟩ := hhead
    rw [ready_isPrefix hhead hp]
    split_ifs with hlt
    · exact Or.inl rfl
    · rw [ready_of_hasHead hhead]
      have hann := h i head hhead
      cases hv : headerLookup head.headers (ascii "Content-Length") with
      | none =>
          rw [hv] at hann
          have hwhole : p = b := hp.eq_of_length_le (by omega)
          exact Or.inr (by rw [hwhole])
      | some v => exact framed_prefix (hp.drop (i + 4)) hv
  · left
    apply ready_of_not_hasHead
    exact fun i head hp' => hhead ⟨i, head, hp'.append hp⟩

theorem readRequest_eq {b : Str} {maxBytes : Int} (hle : (b.length : Int) ≤ maxBytes)
    (hrange : maxBytes < 2 ^ 63)
    (hready : ∀ p, p <+: b → httpRequestReady p.reverse = none ∨
      httpRequestReady p.reverse = httpRequestReady b.reverse)
    {cs : List Str} (hcut : Cut b cs) :
    readRequest (received cs) maxBytes =
      match httpRequestReady b.reverse with
      | some r => .ok r
      | none => httpFinishOnClose b.reverse :=
  loop_eq (p := []) hle hrange hready hcut.whole fun c hc => (hcut.chunk c hc).1

theorem httpContentLength_some {hs : List HttpHeader} {v : Str}
    (h : headerLookup hs (ascii "Content-Length") = some v) :
    httpContentLength hs = stringToInt v := by
  rw [httpContentLength, h]

theorem httpContentLength_none {hs : List HttpHeader}
    (h : headerLookup hs (ascii "Content-Length") = none) : httpContentLength hs = none := by
  rw [httpContentLength, h]

theorem parseRequest_of_hasHead {p : Str} {i : Nat} {head : Request} (h : HasHead p i head) :
    parseRequest p = .ok (httpWithBody head (httpFrameBody head.headers (p.drop (i + 4)))) := by
  rw [parseRequest, unframed_iff.2 ⟨i, head, h, rfl⟩]
  rfl

theorem finish_of_announced {b : Str} (h : Announced b) (hnone : httpRequestReady b.reverse = none) :
    ∃ e, httpFinishOnClose b.reverse = .error e := by
  rw [httpFinishOnClose, List.reverse_reverse]
  cases hparse : parseRequest b with
  | error e => exact ⟨_, rfl⟩
  | ok r =>
      by_cases hhead : ∃ i head, HasHead b i head
      · obtain ⟨i, head, hhead⟩ := hhead
        rw [parseRequest_of_hasHead hhead] at hparse
        obtain rfl := Except.ok.inj hparse
        have hann := h i head hhead
        rw [ready_of_hasHead hhead, framed] at hnone
        cases hv : headerLookup head.headers (ascii "Content-Length") with
        | none =>
            rw [hv] at hnone
            cases hnone
        | some v =>
            rw [hv] at hann
            obtain ⟨n, hn, -⟩ := hann
            have hlength : ∀ body, httpContentLength (httpWithBody head body).headers ≠ none := by
              intro body
              rw [httpWithBody_headers, httpContentLength_some hv, hn]
              exact Option.some_ne_none n
            exact ⟨_, if_neg (hlength _)⟩
      · have hno : ∀ r, httpParseRequestUnframed b ≠ .ok r := by
          intro r hr
          obtain ⟨i, head, hh, -⟩ := unframed_iff.1 hr
          exact hhead ⟨i, head, hh⟩
        rw [parseRequest] at hparse
        cases hun : httpParseRequestUnframed b with
        | error e =>
            rw [hun] at hparse
            cases hparse
        | ok r => exact absurd hun (hno r)

theorem shortestComplete_take {b : Str} {i k : Nat} {head : Request} (h : HasHead b i head)
    (hk : i + 4 + k ≤ b.length)
    (hlen : match headerLookup head.headers (ascii "Content-Length") with
      | none => k = 0
      | some v => stringToInt v = some (k : Int)) :
    ShortestComplete b (b.take (i + 4 + k)) := by
  have hplen : (b.take (i + 4 + k)).length = i + 4 + k := by
    rw [List.length_take]
    omega
  have hp : HasHead (b.take (i + 4 + k)) i head := h.take (List.take_prefix _ _) (by omega)
  refine ⟨List.take_prefix _ _, ⟨i, head, hp, ?_⟩, ?_⟩
  · intro v hv
    rw [hv] at hlen
    refine ⟨k, hlen, ?_⟩
    rw [List.length_drop, hplen]
    omega
  · rintro q hq ⟨i', head', hq', hcount⟩
    obtain ⟨rfl, rfl⟩ := (hq'.append hq).unique hp
    have hqle := hq'.le
    apply hq.eq_of_length_le
    rw [hplen]
    cases hv : headerLookup head'.headers (ascii "Content-Length") with
    | none =>
        rw [hv] at hlen
        omega
    | some v =>
        rw [hv] at hlen
        obtain ⟨n, hn, hle⟩ := hcount v hv
        rw [hlen, Option.some.injEq] at hn
        rw [List.length_drop] at hle
        omega

theorem readsOnce_of_announced {b : Str} {maxBytes : Int} (hle : (b.length : Int) ≤ maxBytes)
    (hrange : maxBytes < 2 ^ 63) (h : Announced b) : ReadsOnce b maxBytes := by
  have hanswer := fun cs (hcut : Cut b cs) => readRequest_eq hle hrange (ready_stable h) hcut
  -- an answer comes from the buffer once it is complete, never from the close
  have hready : ∀ cs r, Cut b cs → readRequest (received cs) maxBytes = .ok r →
      ∃ i head, HasHead b i head ∧ framed head (b.drop (i + 4)) = some r := by
    intro cs r hcut hok
    rw [hanswer cs hcut] at hok
    cases hwhole : httpRequestReady b.reverse with
    | none =>
        obtain ⟨e, he⟩ := finish_of_announced h hwhole
        rw [hwhole, he] at hok
        cases hok
    | some r' =>
        rw [hwhole] at hok
        by_cases hhead : ∃ i head, HasHead b i head
        · obtain ⟨i, head, hhead⟩ := hhead
          rw [ready_of_hasHead hhead] at hwhole
          exact ⟨i, head, hhead, hwhole.trans (congrArg some (Except.ok.inj hok))⟩
        · rw [ready_of_not_hasHead fun i head hp => hhead ⟨i, head, hp⟩] at hwhole
          cases hwhole
  constructor
  · intro cs ds hcs hds
    rw [hanswer cs hcs, hanswer ds hds]
  · intro cs r hcut hok
    obtain ⟨i, head, hhead, hframed⟩ := hready cs r hcut hok
    have hspec := framed_eq_some_iff.1 hframed
    have hann := h i head hhead
    have hlen := hhead.le
    cases hv : headerLookup head.headers (ascii "Content-Length") with
    | none =>
        rw [hv] at hspec hann
        have hshort := shortestComplete_take (k := 0) hhead (by omega) (by rw [hv])
        have hwhole : b.take (i + 4 + 0) = b := List.take_of_length_le (by omega)
        rw [hwhole] at hshort
        refine ⟨b, hshort, ?_⟩
        rw [parseRequest_of_hasHead hhead, httpFrameBody, httpContentLength_none hv, hspec]
    | some v =>
        rw [hv] at hspec hann
        obtain ⟨n, hn, hcount, rfl⟩ := hspec
        obtain ⟨m, hm, hm0⟩ := hann
        obtain rfl := Option.some.inj (hn.symm.trans hm)
        obtain ⟨k, rfl⟩ := Int.eq_ofNat_of_zero_le hm0
        rw [List.length_drop] at hcount
        have hk : i + 4 + k ≤ b.length := by omega
        refine ⟨_, shortestComplete_take hhead hk (by rw [hv]; exact hn), ?_⟩
        have hp : HasHead (b.take (i + 4 + k)) i head := by
          apply hhead.take (List.take_prefix _ _)
          rw [List.length_take]
          omega
        rw [parseRequest_of_hasHead hp, httpFrameBody, httpContentLength_some hv, hn]
        simp only [httpClampBody_eq, Int.toNat_natCast]
        rw [List.drop_take, Nat.add_sub_cancel_left, List.take_take, Nat.min_self]
  · intro cs r hcut hok hnone
    obtain ⟨i, head, hhead, hframed⟩ := hready cs r hcut hok
    have hspec := framed_eq_some_iff.1 hframed
    have hann := h i head hhead
    cases hv : headerLookup head.headers (ascii "Content-Length") with
    | none =>
        rw [hv] at hspec hann
        rw [hspec, httpWithBody_body]
        exact List.drop_of_length_le (by omega)
    | some v =>
        rw [hv] at hspec
        obtain ⟨n, -, -, rfl⟩ := hspec
        rw [httpWithBody_headers, hv] at hnone
        cases hnone
  · intro cs r v hcut hok hsome
    obtain ⟨i, head, hhead, hframed⟩ := hready cs r hcut hok
    have hspec := framed_eq_some_iff.1 hframed
    have hann := h i head hhead
    cases hv : headerLookup head.headers (ascii "Content-Length") with
    | none =>
        rw [hv] at hspec
        rw [hspec, httpWithBody_headers, hv] at hsome
        cases hsome
    | some v' =>
        rw [hv] at hspec hann
        obtain ⟨n, hn, hcount, rfl⟩ := hspec
        obtain ⟨m, hm, hm0⟩ := hann
        obtain rfl := Option.some.inj (hn.symm.trans hm)
        rw [httpWithBody_headers, hv] at hsome
        obtain rfl := Option.some.inj hsome
        refine ⟨n, hn, ?_⟩
        rw [httpWithBody_body, List.length_take]
        omega

theorem leaks_into_body {b : Str} {maxBytes : Int} {i : Nat} {head : Request}
    (hle : (b.length : Int) ≤ maxBytes) (hrange : maxBytes < 2 ^ 63) (h : HasHead b i head)
    (hv : headerLookup head.headers (ascii "Content-Length") = none) (hmore : i + 4 < b.length) :
    ∃ cs r, Cut b cs ∧ readRequest (received cs) maxBytes = .ok r ∧
      headerLookup r.headers (ascii "Content-Length") = none ∧ r.body ≠ [] := by
  have hsplit : b.take (i + 3) ++ ((b.drop (i + 3)).take 2 ++ b.drop (i + 5)) = b := by
    have htail : (b.drop (i + 3)).drop 2 = b.drop (i + 5) := by rw [List.drop_drop]
    rw [← htail, List.take_append_drop, List.take_append_drop]
  have htwo : ((b.drop (i + 3)).take 2).length = 2 := by
    rw [List.length_take, List.length_drop]
    omega
  have hplen : (b.take (i + 3)).length = i + 3 := by
    rw [List.length_take]
    omega
  have hjoin : b.take (i + 3) ++ (b.drop (i + 3)).take 2 = b.take (i + 5) := (List.take_add ..).symm
  have hpair : (b.drop (i + 3)).take 2 ≠ [] := by
    apply List.ne_nil_of_length_pos
    omega
  have hearly : ∀ q, q <+: b.take (i + 3) → httpRequestReady q.reverse = none := by
    intro q hq
    have hqlen := hq.length_le
    rw [ready_isPrefix h (hq.trans (List.take_prefix _ _)), if_pos (by omega)]
  have hlen : (b.take (i + 5)).length = i + 5 := by
    rw [List.length_take]
    omega
  have hnow : httpRequestReady (b.take (i + 5)).reverse =
      some (httpWithBody head ((b.take (i + 5)).drop (i + 4))) := by
    rw [ready_isPrefix h (List.take_prefix _ _), if_neg (by omega), framed, hv]
  have hrun : readRequest (received (singles (b.take (i + 3)) ++
      ((b.drop (i + 3)).take 2 :: singles (b.drop (i + 5))))) maxBytes =
      .ok (httpWithBody head ((b.take (i + 5)).drop (i + 4))) := by
    calc
      _ = httpReadRequestLoop maxBytes ((singles (b.take (i + 3))).map .ok ++
            (.ok ((b.drop (i + 3)).take 2) :: received (singles (b.drop (i + 5)))))
            ([] : Str).reverse ([] : Str).length := by
          rw [readRequest, received, List.map_append, List.append_assoc]
          rfl
      _ = httpReadRequestLoop maxBytes
            (.ok ((b.drop (i + 3)).take 2) :: received (singles (b.drop (i + 5))))
            (b.take (i + 3)).reverse (b.take (i + 3)).length := by
          rw [loop_skip hrange, List.nil_append, flatten_singles]
          · exact fun c hc => ((cut_singles _).chunk c hc).1
          · rw [List.nil_append, flatten_singles]
            omega
          · rw [List.nil_append, flatten_singles]
            exact hearly
      _ = httpReadRequestLoop maxBytes (received (singles (b.drop (i + 5))))
            (b.take (i + 5)).reverse (b.take (i + 5)).length := by
          have hbound : ((b.take (i + 5)).length : Int) ≤ maxBytes := by omega
          rw [← hjoin] at hbound ⊢
          exact loop_step hpair hbound hrange (hearly _ (List.prefix_refl _))
      _ = _ := loop_ready (by omega) hnow
  refine ⟨_, _, ⟨?_, ?_⟩, hrun, hv, ?_⟩
  · rw [List.flatten_append, List.flatten_cons, flatten_singles, flatten_singles, hsplit]
  · intro c hc
    rcases List.mem_append.1 hc with hc | hc
    · exact (cut_singles _).chunk c hc
    · rcases List.mem_cons.1 hc with rfl | hc
      · exact ⟨hpair, by omega⟩
      · exact (cut_singles _).chunk c hc
  · apply List.ne_nil_of_length_pos
    rw [httpWithBody_body, List.length_drop]
    omega

theorem announced_of_readsOnce {b : Str} {maxBytes : Int} (hle : (b.length : Int) ≤ maxBytes)
    (hrange : maxBytes < 2 ^ 63) (h : ReadsOnce b maxBytes) : Announced b := by
  intro i head hhead
  have hlen := hhead.le
  cases hv : headerLookup head.headers (ascii "Content-Length") with
  | none =>
      by_contra hmore
      obtain ⟨cs, r, hcut, hok, hnone, hbody⟩ :=
        leaks_into_body hle hrange hhead hv (by omega)
      exact hbody (h.empty cs r hcut hok hnone)
  | some v =>
      have hstable : ∀ p, p <+: b → httpRequestReady p.reverse = none ∨
          httpRequestReady p.reverse = httpRequestReady b.reverse := by
        intro p hp
        rw [ready_isPrefix hhead hp, ready_of_hasHead hhead]
        split_ifs
        · exact Or.inl rfl
        · exact framed_prefix (hp.drop (i + 4)) hv
      have hanswer := readRequest_eq hle hrange hstable (cut_singles b)
      rw [ready_of_hasHead hhead] at hanswer
      simp only
      cases hn : stringToInt v with
      | none =>
          have hframed : framed head (b.drop (i + 4)) = none := by simp only [framed, hv, hn]
          have hclose : httpFinishOnClose b.reverse =
              .ok (httpWithBody head (httpFrameBody head.headers (b.drop (i + 4)))) := by
            have hunusable : ∀ body, httpContentLength (httpWithBody head body).headers = none := by
              intro body
              rw [httpWithBody_headers, httpContentLength_some hv, hn]
            rw [httpFinishOnClose, List.reverse_reverse, parseRequest_of_hasHead hhead]
            exact if_pos (hunusable _)
          rw [hframed, hclose] at hanswer
          obtain ⟨n, hn', -⟩ := h.exact _ _ v (cut_singles b) hanswer hv
          rw [hn] at hn'
          cases hn'
      | some n =>
          refine ⟨n, rfl, ?_⟩
          by_contra hneg
          have hframed : framed head (b.drop (i + 4)) = some (httpWithBody head []) := by
            apply framed_eq_some_iff.2
            rw [hv]
            refine ⟨n, hn, by omega, ?_⟩
            rw [Int.toNat_of_nonpos (by omega), List.take_zero]
          rw [hframed] at hanswer
          obtain ⟨m, hm, hbody⟩ := h.exact _ _ v (cut_singles b) hanswer hv
          rw [hn, Option.some.injEq] at hm
          rw [httpWithBody_body, List.length_nil] at hbody
          omega

/-- A read is independent of the network exactly when the request announces the length of
what follows its head. -/
theorem readsOnce_iff (b : Str) (maxBytes : Int) (hle : (b.length : Int) ≤ maxBytes)
    (hrange : maxBytes < 2 ^ 63) : ReadsOnce b maxBytes ↔ Announced b :=
  ⟨announced_of_readsOnce hle hrange, readsOnce_of_announced hle hrange⟩

/-- A request of two bytes, with a third behind it. -/
def postHi : Str := ascii "POST / HTTP/1.1\r\nContent-Length: 2\r\n\r\nhi!"

def postHiHead : Request := ⟨ascii "POST", ascii "/", [⟨ascii "Content-Length", ascii "2"⟩], []⟩

theorem readsOnce_postHi : ReadsOnce postHi 64 := by
  apply (readsOnce_iff postHi 64 (by decide) (by decide)).2
  intro i head hhead
  have hfirst : HasHead postHi 34 postHiHead := ⟨rfl, rfl⟩
  obtain ⟨rfl, rfl⟩ := hhead.unique hfirst
  have hval : Decimal.digitsOf (ascii "2") = 2 := rfl
  have hrange : Word64.InRange (Decimal.digitsOf (ascii "2")) := by
    rw [hval]
    constructor <;> norm_num
  have hdigits : Decimal.AllDigits (ascii "2") := by
    intro b hb
    obtain rfl := List.mem_singleton.1 hb
    decide
  have hread : stringToInt (ascii "2") = some 2 :=
    (stringToInt_digits hdigits (by decide) (by decide) hrange).trans (by rw [hval]; rfl)
  exact ⟨2, hread, by decide⟩

/-- A request without a length, and the first bytes of the next one. -/
def getThenMore : Str := ascii "GET / HTTP/1.1\r\n\r\nGET"

/-- The bytes of the next request are its body when they arrive with the blank line. -/
theorem read_depends_on_cut :
    Cut getThenMore [getThenMore] ∧
    Cut getThenMore [getThenMore.take 18, getThenMore.drop 18] ∧
    readRequest (received [getThenMore]) 64 = .ok ⟨ascii "GET", ascii "/", [], ascii "GET"⟩ ∧
    readRequest (received [getThenMore.take 18, getThenMore.drop 18]) 64 =
      .ok ⟨ascii "GET", ascii "/", [], []⟩ ∧
    ¬ ReadsOnce getThenMore 64 := by
  have hone : Cut getThenMore [getThenMore] := ⟨rfl, by decide⟩
  have htwo : Cut getThenMore [getThenMore.take 18, getThenMore.drop 18] := ⟨rfl, by decide⟩
  have hempty : httpRequestReady (([] : Str)).reverse = none := rfl
  have hwhole : httpRequestReady getThenMore.reverse =
      some ⟨ascii "GET", ascii "/", [], ascii "GET"⟩ := rfl
  have hhead : httpRequestReady (getThenMore.take 18).reverse =
      some ⟨ascii "GET", ascii "/", [], []⟩ := rfl
  have hreadOne : readRequest (received [getThenMore]) 64 =
      .ok ⟨ascii "GET", ascii "/", [], ascii "GET"⟩ :=
    (loop_step (p := []) (by decide) (by decide) (by decide) hempty).trans
      (loop_ready (by decide) hwhole)
  have hreadTwo : readRequest (received [getThenMore.take 18, getThenMore.drop 18]) 64 =
      .ok ⟨ascii "GET", ascii "/", [], []⟩ :=
    (loop_step (p := []) (by decide) (by decide) (by decide) hempty).trans
      (loop_ready (by decide) hhead)
  refine ⟨hone, htwo, hreadOne, hreadTwo, ?_⟩
  intro h
  have hbody := h.empty _ ⟨ascii "GET", ascii "/", [], ascii "GET"⟩ hone hreadOne rfl
  exact absurd hbody (by decide)

end Kaikai.Http
