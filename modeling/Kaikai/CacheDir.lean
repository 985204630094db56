import Kaikai.LexicalPath

namespace Kaikai.KaiPkg

open Str LexicalPath

def stringStartsWithStr (s p : Str) : Bool :=
  if p.length > s.length then false else stringSlice s 0 p.length == p

def stripUrlPrefix (s : Str) : Str :=
  if stringStartsWithStr s (ascii "https://") then stringSlice s 8 ((s.length : Int) - 8)
  else if stringStartsWithStr s (ascii "http://") then stringSlice s 7 ((s.length : Int) - 7)
  else if stringStartsWithStr s (ascii "ssh://") then stringSlice s 6 ((s.length : Int) - 6)
  else if stringStartsWithStr s (ascii "file://") then stringSlice s 7 ((s.length : Int) - 7)
  else if stringStartsWithStr s (ascii "git@") then stringSlice s 4 ((s.length : Int) - 4)
  else s

/-- `char.is_alnum`, which takes the underscore for a letter. -/
def isAlnum (c : UInt8) : Bool :=
  (97 ≤ c && c ≤ 122) || (65 ≤ c && c ≤ 90) || c == 95 || (48 ≤ c && c ≤ 57)

/-- The bytes that a slug keeps. -/
def isSafe (c : UInt8) : Bool := isAlnum c || c == 95 || c == 45 || c == 46

def slugifyLoop (keepSlash : Bool) : Str → Str → Str
  | [], acc => acc
  | c :: s, acc =>
      slugifyLoop keepSlash s
        (acc ++ if isSafe c then [c] else if keepSlash && c == 47 then [47] else [95])

def slugifyRef (r : Str) : Str := slugifyLoop false r []

def slugifyPath (p : Str) : Str := slugifyLoop true p []

/-- The root of the cache: the value of `KAIKAI_CACHE_ROOT`, if the variable is set. -/
def cacheRoot (env : Option Str) : Str := env.getD (ascii "/tmp/kaikai-cache")

/-- The slug of a source: its protocol prefix and one leading slash are stripped. -/
def slugFor (source : Str) : Str :=
  let normalised := stripUrlPrefix source
  slugifyPath
    (if stringStartsWithStr normalised [47] then
      stringSlice normalised 1 ((normalised.length : Int) - 1)
    else normalised)

def cacheDirFor (env : Option Str) (source sha : Str) : Str :=
  cacheRoot env ++ 47 :: slugFor source ++ 47 :: slugifyRef sha

def pathParentLoop (p : Str) : Nat → Str
  | 0 => [47]
  | i + 1 =>
      match p[i + 1]? with
      | none => p
      | some c => if c = 47 then p.take (i + 1) else pathParentLoop p i

def pathParent (p : Str) : Str := pathParentLoop p (p.length - 1)

/-- A commit id: forty hexadecimal digits. -/
structure Commit where
  text : Str
  length : text.length = 40
  hex : ∀ c ∈ text, (48 ≤ c ∧ c ≤ 57) ∨ (97 ≤ c ∧ c ≤ 102) ∨ (65 ≤ c ∧ c ≤ 70)

/-- The package lies below the root of the cache, under its commit, and the directory made for it
lies in the cache. -/
structure Contained (env : Option Str) (source : Str) (sha : Commit) : Prop where
  rooted : (resolve (cacheDirFor env source sha.text)).rooted = (resolve (cacheRoot env)).rooted
  below : ∃ rest, (resolve (cacheDirFor env source sha.text)).segments =
    (resolve (cacheRoot env)).segments ++ (rest ++ [sha.text]) ∧ dotdot ∉ rest
  parent : AtOrBelow (resolve (pathParent (cacheDirFor env source sha.text)))
    (resolve (cacheRoot env))

theorem isSafe_of_hex {c : UInt8}
    (h : (48 ≤ c ∧ c ≤ 57) ∨ (97 ≤ c ∧ c ≤ 102) ∨ (65 ≤ c ∧ c ≤ 70)) : isSafe c = true := by
  simp only [isSafe, isAlnum, Bool.or_eq_true, Bool.and_eq_true, decide_eq_true_eq, beq_iff_eq]
  have hmono : ∀ {m n : UInt8}, c ≤ m → m ≤ n → c ≤ n := fun h h' => UInt8.le_trans h h'
  obtain ⟨hlow, hhigh⟩ | ⟨hlow, hhigh⟩ | ⟨hlow, hhigh⟩ := h
  · exact .inl (.inl (.inl (.inr ⟨hlow, hhigh⟩)))
  · exact .inl (.inl (.inl (.inl (.inl (.inl ⟨hlow, hmono hhigh (by decide)⟩)))))
  · exact .inl (.inl (.inl (.inl (.inl (.inr ⟨hlow, hmono hhigh (by decide)⟩)))))

theorem slugifyLoop_safe {keepSlash : Bool} : ∀ {s : Str}, (∀ c ∈ s, isSafe c = true) →
    ∀ acc, slugifyLoop keepSlash s acc = acc ++ s
  | [], _, acc => (List.append_nil acc).symm
  | c :: s, h, acc => by
      obtain ⟨hc, hs⟩ := List.forall_mem_cons.1 h
      rw [slugifyLoop, if_pos hc, slugifyLoop_safe hs, List.append_assoc, List.singleton_append]

theorem Commit.slugifyRef_eq (sha : Commit) : slugifyRef sha.text = sha.text :=
  slugifyLoop_safe (fun c hc => isSafe_of_hex (sha.hex c hc)) []

theorem Commit.slash_not_mem (sha : Commit) : 47 ∉ sha.text := by
  intro hmem
  exact absurd (sha.hex 47 hmem) (by decide)

theorem Commit.step_eq (sha : Commit) (rooted : Bool) (stack : List Str) :
    step rooted stack sha.text = stack ++ [sha.text] := by
  have hlen := sha.length
  have hne : ∀ t : Str, t.length ≠ 40 → sha.text ≠ t := fun t ht heq => ht (heq ▸ hlen)
  rw [step, if_neg (by rintro (h | h); exacts [hne _ (by decide) h, hne _ (by decide) h]),
    if_neg (hne _ (by decide))]

theorem pathParentLoop_eq {front leaf : Str} (hleaf : 47 ∉ leaf) (hfront : front ≠ []) :
    ∀ {i : Nat}, front.length ≤ i → i ≤ front.length + leaf.length →
      pathParentLoop (front ++ 47 :: leaf) i = front
  | 0, hlow, _ => absurd (List.length_eq_zero_iff.1 (Nat.le_zero.1 hlow)) hfront
  | i + 1, hlow, hhigh => by
      rw [pathParentLoop]
      obtain heq | hlt := Nat.eq_or_lt_of_le hlow
      · rw [← heq, List.getElem?_append_right le_rfl, Nat.sub_self, List.getElem?_cons_zero]
        dsimp only
        rw [if_pos rfl, List.take_left]
      · obtain ⟨k, hk⟩ : ∃ k, i + 1 = front.length + (k + 1) := ⟨i - front.length, by omega⟩
        have hin : k < leaf.length := by omega
        have hbyte : (front ++ 47 :: leaf)[i + 1]? = some leaf[k] := by
          rw [hk, List.getElem?_append_right (Nat.le_add_right _ _), Nat.add_sub_cancel_left,
            List.getElem?_cons_succ, List.getElem?_eq_getElem hin]
        have hne : leaf[k] ≠ 47 := fun h => hleaf (h ▸ List.getElem_mem hin)
        rw [hbyte]
        dsimp only
        rw [if_neg hne]
        exact pathParentLoop_eq hleaf hfront (Nat.lt_succ_iff.1 hlt) (Nat.le_of_succ_le hhigh)

theorem pathParent_eq {front leaf : Str} (hleaf : 47 ∉ leaf) (hfront : front ≠ []) :
    pathParent (front ++ 47 :: leaf) = front := by
  have hlen : (front ++ 47 :: leaf).length - 1 = front.length + leaf.length := by
    rw [List.length_append, List.length_cons]
    rfl
  rw [pathParent, hlen]
  exact pathParentLoop_eq hleaf hfront (Nat.le_add_right _ _) le_rfl

theorem resolve_dir {root : Str} (hroot : root ≠ []) (slug : Str) :
    resolve (root ++ 47 :: slug) = ⟨(resolve root).rooted,
      (slug.splitOn 47).foldl (step (resolve root).rooted) (resolve root).segments⟩ := by
  obtain ⟨c, s, rfl⟩ := List.exists_cons_of_ne_nil hroot
  rw [resolve, List.splitOn_append_cons_self, List.foldl_append]
  rfl

/-- The package stays in the cache exactly when the root of the cache is not the empty text and the
slug, resolved on its own, does not leave the root: it does not climb above its start, or climbs over
names of the root only and then descends by the same names again. -/
theorem contained_iff (env : Option Str) (source : Str) (sha : Commit) :
    Contained env source sha ↔ cacheRoot env ≠ [] ∧
      StaysIn (resolve (cacheRoot env)) (climbOf ((slugFor source).splitOn 47)) := by
  have hdir : cacheDirFor env source sha.text =
      (cacheRoot env ++ 47 :: slugFor source) ++ 47 :: sha.text := by
    rw [cacheDirFor, sha.slugifyRef_eq]
  have hfront : cacheRoot env ++ 47 :: slugFor source ≠ [] :=
    List.append_ne_nil_of_right_ne_nil _ (List.cons_ne_nil _ _)
  have hparent := pathParent_eq sha.slash_not_mem hfront
  rw [← hdir] at hparent
  by_cases hroot : cacheRoot env = []
  · refine iff_of_false (fun h => ?_) fun h => h.1 hroot
    have hrooted := h.parent.1
    rw [hparent, hroot] at hrooted
    cases hrooted
  · obtain ⟨ups, names, hnormal⟩ := normal_resolve (cacheRoot env)
    have hresolve := resolve_dir hroot (slugFor source)
    have hleaf : resolve (cacheDirFor env source sha.text) = ⟨(resolve (cacheRoot env)).rooted,
        (resolve (cacheRoot env ++ 47 :: slugFor source)).segments ++ [sha.text]⟩ := by
      rw [hdir, resolve_dir hfront, hresolve, List.splitOn_eq_singleton sha.slash_not_mem]
      exact congrArg _ (sha.step_eq _ _)
    have hextends := extends_iff_staysIn hnormal
      (climbOf_names ((slugFor source).splitOn 47))
    have hsegments : (resolve (cacheRoot env ++ 47 :: slugFor source)).segments =
        ((slugFor source).splitOn 47).foldl (step (resolve (cacheRoot env)).rooted)
          (resolve (cacheRoot env)).segments := by rw [hresolve]
    rw [← foldl_step, ← hsegments] at hextends
    rw [← hextends]
    constructor
    · exact fun h => ⟨hroot, hparent ▸ h.parent.2⟩
    · rintro ⟨-, rest, hrest, hup⟩
      refine ⟨?_, ⟨rest, ?_, hup⟩, ?_, rest, ?_, hup⟩
      · rw [hleaf]
      · rw [hleaf, hrest, List.append_assoc]
      · rw [hparent, hresolve]
      · rw [hparent, hrest]

/-- The commit of forty zeros. -/
def nullCommit : Commit where
  text := List.replicate 40 48
  length := rfl
  hex := fun c hc => by
    rw [List.eq_of_mem_replicate hc]
    decide

/-- The source `../x` climbs out of the cache. -/
theorem not_contained_parent : ¬ Contained none [46, 46, 47, 120] nullCommit := by
  rw [contained_iff, StaysIn]
  decide +kernel

end Kaikai.KaiPkg
