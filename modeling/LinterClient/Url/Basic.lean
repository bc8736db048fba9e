import LinterClient.Url.Host

/-!
URLs in normal form, as values and as text.
-/

namespace LinterClient

/-- The part of a URL between `//` and its path. -/
structure Url.Authority where
  /-- The encoded user name and password, without the `@`. -/
  userinfo : String
  host : Url.Host
  port : Option Nat
deriving DecidableEq

structure Url where
  scheme : String
  authority : Option Url.Authority
  path : String
  query : Option String
  fragment : Option String
deriving DecidableEq

namespace Url

def Authority.text (a : Authority) : String :=
  (if a.userinfo = "" then "" else a.userinfo ++ "@") ++ a.host.text ++
    (match a.port with
      | some p => ":" ++ String.ofList (Nat.toDigits 10 p)
      | none => "")

/-- The URL as text. A path that starts with two slashes is set apart from the authority it would
otherwise be read as. -/
def text (u : Url) : String :=
  let authority := match u.authority with
    | some a => "//" ++ a.text
    | none => if u.path.startsWith "//" then "/." else ""
  u.scheme ++ ":" ++ authority ++ u.path ++
    (u.query.map ("?" ++ ·)).getD "" ++ (u.fragment.map ("#" ++ ·)).getD ""

/-- The host, if there is one. -/
def host? (u : Url) : Option Host :=
  u.authority.bind fun a => if a.host = .empty then none else some a.host

end Url

end LinterClient
