import FluxCore.Json.JsonParser
import Mathlib.Data.List.Nodup

/-!
# Cookies

A cookie, and the cookies that a node of the store holds: at most fifty, no two of which have their
domain, path and name in common.
-/

namespace FluxCore.Cookies

open Utp (Bytes)
open Json (encodeInteger)

structure Cookie where
  expiryTime : Int
  creationTime : Int
  lastAccessTime : Int
  name : Bytes
  value : Bytes
  domain : Bytes
  path : Bytes
  persistent : Bool
  hostOnly : Bool
  secure : Bool
  httpOnly : Bool
  deriving DecidableEq

/-- The separator `'/'` of paths. -/
def slash : UInt8 := 0x2f

/-- The separator `'.'` of labels. -/
def period : UInt8 := 0x2e

def tab : UInt8 := 0x09

section Matching

variable (isNumericHost : Bytes → Bool)

def domainMatch (requestHost domain : Bytes) : Bool :=
  requestHost = domain ||
    (domain.isSuffixOf requestHost &&
      requestHost[requestHost.length - domain.length - 1]? = some period &&
      !isNumericHost requestHost)

/-- An empty path is that of no cookie; the character in front of its end would be read. -/
def pathMatch (requestPath path : Bytes) : Bool :=
  requestPath = path ||
    (path.isPrefixOf requestPath &&
      (path.getLast? = some slash || requestPath[path.length]? = some slash))

namespace Cookie

/-- What `operator==` compares. -/
def key (c : Cookie) : Bytes × Bytes × Bytes := (c.domain, c.path, c.name)

def isExpired (c : Cookie) (base : Int) : Bool := c.persistent && c.expiryTime < base

def «match» (c : Cookie) (requestHost requestPath : Bytes) (date : Int) (secure : Bool) : Bool :=
  if (c.secure && !secure) || c.isExpired date || !pathMatch requestPath c.path then false
  else if c.hostOnly then requestHost = c.domain
  else domainMatch isNumericHost requestHost c.domain

/-- `"TRUE"` or `"FALSE"`. -/
def flag (b : Bool) : Bytes := (if b then "TRUE" else "FALSE").toUTF8.toList

/-- A line of a cookie file, its fields separated by tabs. -/
def toNsCookieFormat (c : Cookie) : Bytes :=
  [tab].intercalate [(if c.hostOnly then [] else [period]) ++ c.domain, flag (!c.hostOnly), c.path,
    flag c.secure, encodeInteger (if c.persistent then c.expiryTime else 0), c.name, c.value]

end Cookie

end Matching

/-! ## The cookies of a node -/

def MAX_COOKIE_PER_DOMAIN : Nat := 50

/-- The cookie that was used least recently, the first of them, is replaced. -/
def replaceOldest (cookies : List Cookie) (cookie : Cookie) : List Cookie :=
  let m := cookies.findIdx fun c => cookies.all fun d => c.lastAccessTime ≤ d.lastAccessTime
  cookies.set m cookie

/-- `DomainNode::addCookie` on the cookies of the node. -/
def addCookie (cookies : Option (List Cookie)) (cookie : Cookie) (now : Int) :
    Bool × Option (List Cookie) :=
  match cookies with
  | none => if cookie.isExpired now then (false, none) else (true, some [cookie])
  | some cookies =>
    match cookies.findIdx? fun c => c.key = cookie.key with
    | none =>
      if cookie.isExpired now then (false, some cookies)
      else if MAX_COOKIE_PER_DOMAIN ≤ cookies.length then
        let cookies := cookies.filter fun c => !c.isExpired now
        if MAX_COOKIE_PER_DOMAIN ≤ cookies.length then (true, some (replaceOldest cookies cookie))
        else (true, some (cookies ++ [cookie]))
      else (true, some (cookies ++ [cookie]))
    | some i =>
      if cookie.isExpired now then (false, some (cookies.eraseIdx i))
      else
        let creationTime := (cookies[i]?.map Cookie.creationTime).getD cookie.creationTime
        (true, some (cookies.set i { cookie with creationTime }))

/-- The cookies of a node that match a request, each of them accessed. -/
def findCookie (isNumericHost : Bytes → Bool) (cookies : List Cookie)
    (requestHost requestPath : Bytes) (now : Int) (secure : Bool) : List Cookie × List Cookie :=
  let access (c : Cookie) : Cookie :=
    if c.match isNumericHost requestHost requestPath now secure then { c with lastAccessTime := now }
    else c
  ((cookies.filter fun c => c.match isNumericHost requestHost requestPath now secure).map access,
    cookies.map access)

/-- At most fifty cookies, and no two the same. -/
structure Bounded (cookies : List Cookie) : Prop where
  length_le : cookies.length ≤ MAX_COOKIE_PER_DOMAIN
  nodup : (cookies.map Cookie.key).Nodup

theorem nodup_set {cookies : List Cookie} {cookie : Cookie} (h : (cookies.map Cookie.key).Nodup)
    (hnew : ∀ c ∈ cookies, c.key ≠ cookie.key) (i : Nat) :
    ((cookies.set i cookie).map Cookie.key).Nodup := by
  rw [List.map_set]
  refine h.set fun hmem => ?_
  obtain ⟨c, hc, heq⟩ := List.mem_map.mp hmem
  exact hnew c hc heq

theorem nodup_append {cookies : List Cookie} {cookie : Cookie} (h : (cookies.map Cookie.key).Nodup)
    (hnew : ∀ c ∈ cookies, c.key ≠ cookie.key) :
    ((cookies ++ [cookie]).map Cookie.key).Nodup := by
  rw [List.map_append, List.nodup_append]
  refine ⟨h, List.nodup_singleton _, ?_⟩
  simp only [List.map_cons, List.map_nil, List.mem_singleton, List.mem_map]
  rintro _ ⟨c, hc, rfl⟩ _ rfl
  exact hnew c hc

theorem Bounded.addCookie {cookies : Option (List Cookie)} (h : ∀ l ∈ cookies, Bounded l)
    (cookie : Cookie) (now : Int) : ∀ l ∈ (addCookie cookies cookie now).2, Bounded l := by
  unfold Cookies.addCookie
  cases cookies with
  | none =>
    dsimp only
    split
    · exact fun l hl => nomatch hl
    · rintro l ⟨⟩
      exact ⟨Nat.le_add_left 1 49, List.nodup_singleton _⟩
  | some cookies =>
    have hb := h cookies rfl
    dsimp only
    split
    next hfind =>
      have hnew : ∀ c ∈ cookies, c.key ≠ cookie.key := by
        simpa using List.findIdx?_eq_none_iff.mp hfind
      have hnew' : ∀ c ∈ cookies.filter fun c => !c.isExpired now, c.key ≠ cookie.key :=
        fun c hc => hnew c (List.mem_of_mem_filter hc)
      have hsub : (cookies.filter fun c => !c.isExpired now).Sublist cookies :=
        List.filter_sublist
      have hnodup := (hsub.map Cookie.key).nodup hb.nodup
      split_ifs with hexpired hfull hstill
      · exact fun l hl => Option.some.inj hl ▸ hb
      · rintro l ⟨⟩
        refine ⟨?_, nodup_set hnodup hnew' _⟩
        rw [replaceOldest, List.length_set]
        exact hsub.length_le.trans hb.length_le
      · rintro l ⟨⟩
        refine ⟨?_, nodup_append hnodup hnew'⟩
        rw [List.length_append]
        exact Nat.lt_of_not_le hstill
      · rintro l ⟨⟩
        refine ⟨?_, nodup_append hb.nodup hnew⟩
        rw [List.length_append]
        exact Nat.lt_of_not_le hfull
    next i hfind =>
      split
      · rintro l ⟨⟩
        have hsub : (cookies.eraseIdx i).Sublist cookies := List.eraseIdx_sublist ..
        exact ⟨hsub.length_le.trans hb.length_le, (hsub.map Cookie.key).nodup hb.nodup⟩
      · rintro l ⟨⟩
        refine ⟨by rw [List.length_set]; exact hb.length_le, ?_⟩
        obtain ⟨hi, hkey, -⟩ := List.findIdx?_eq_some_iff_getElem.mp hfind
        have hset : (cookies.map Cookie.key).set i cookie.key = cookies.map Cookie.key := by
          have hi' : i < (cookies.map Cookie.key).length := by rwa [List.length_map]
          rw [← of_decide_eq_true hkey, ← List.getElem_map Cookie.key (h := hi')]
          exact List.set_getElem_self hi'
        rw [List.map_set]
        change ((cookies.map Cookie.key).set i cookie.key).Nodup
        rw [hset]
        exact hb.nodup

/-- A cookie that is stored leaves the node with cookies; one that is not adds none. -/
theorem addCookie_cases (cookies : Option (List Cookie)) (cookie : Cookie) (now : Int) :
    ((addCookie cookies cookie now).1 = true ∧ ∃ l, (addCookie cookies cookie now).2 = some l) ∨
      ((addCookie cookies cookie now).1 = false ∧
        ∀ l ∈ (addCookie cookies cookie now).2, ∃ l' ∈ cookies, l.Sublist l') := by
  unfold addCookie
  cases cookies with
  | none =>
    dsimp only
    split
    · exact .inr ⟨rfl, fun l hl => nomatch hl⟩
    · exact .inl ⟨rfl, _, rfl⟩
  | some cookies =>
    dsimp only
    split
    · split_ifs
      · exact .inr ⟨rfl, fun l hl => ⟨l, hl, .refl _⟩⟩
      all_goals exact .inl ⟨rfl, _, rfl⟩
    · split
      · refine .inr ⟨rfl, ?_⟩
        rintro l ⟨⟩
        exact ⟨cookies, rfl, List.eraseIdx_sublist ..⟩
      · exact .inl ⟨rfl, _, rfl⟩

theorem addCookie_ne_none {cookies : Option (List Cookie)} (h : cookies ≠ none) (cookie : Cookie)
    (now : Int) : (addCookie cookies cookie now).2 ≠ none := by
  unfold addCookie
  cases cookies with
  | none => exact absurd rfl h
  | some cookies =>
    dsimp only
    split
    · split_ifs <;> exact Option.some_ne_none _
    · split <;> exact Option.some_ne_none _

theorem Bounded.findCookie {cookies : List Cookie} (h : Bounded cookies)
    (isNumericHost : Bytes → Bool) (requestHost requestPath : Bytes) (now : Int) (secure : Bool) :
    Bounded (findCookie isNumericHost cookies requestHost requestPath now secure).2 := by
  unfold Cookies.findCookie
  dsimp only
  refine ⟨by rw [List.length_map]; exact h.length_le, ?_⟩
  rw [List.map_map]
  convert h.nodup using 2
  funext c
  dsimp only [Function.comp]
  split <;> rfl

end FluxCore.Cookies
