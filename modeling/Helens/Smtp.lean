import Helens.HashUtil
import Mathlib.Data.Char
import Mathlib.Data.List.Lex

/-! `SmtpClient::send` of `email/smtp.cc`, and the commands that a server finds in what is sent. -/

namespace Helens.SmtpClient
open List

abbrev Text := List Char

/-! ## The code -/

structure EMailEntity where
  headers : List (Text × Text)
  content : Text

structure Envelope where
  fromAddress : Text
  fromPasswd : Text
  toAddress : List Text
  ccAddress : List Text
  bccAddress : List Text

structure EMail extends Envelope where
  title : Text
  body : Text
  entitys : List EMailEntity

def crlf : Text := ['\r', '\n']

def EMailEntity.toText (e : EMailEntity) : Text :=
  e.headers.flatMap (fun h => h.1 ++ ": ".toList ++ h.2 ++ crlf) ++ e.content ++ crlf

def encode (s : Text) : Text := HashUtil.base64encode (s.map fun c => .ofNat 8 c.toNat)

/-- The commands up to `DATA`, to a server that accepts each of them. -/
def commands (host : Text) (authed : Bool) (m : Envelope) : List Text :=
  ["HELO ".toList ++ host] ++
  (if !authed && !m.fromAddress.isEmpty then
    ["AUTH LOGIN".toList, encode (m.fromAddress.takeWhile (· ≠ '@')), encode m.fromPasswd]
  else []) ++
  ["MAIL FROM: <".toList ++ m.fromAddress ++ ['>']] ++
  (((m.toAddress ++ m.ccAddress ++ m.bccAddress).eraseDups.insertionSort (· ≤ ·)).map fun i =>
    "RCPT TO: <".toList ++ i ++ ['>']) ++
  ["DATA".toList]

def addresses (v : List Text) : Text :=
  [','].intercalate (v.map fun i => '<' :: i ++ ['>']) ++ if v.isEmpty then [] else crlf

/-- The last command, without the dot and the line end behind it. -/
def message (m : EMail) (boundary : Text) : Text :=
  let part := crlf ++ "--".toList ++ boundary
  "From: <".toList ++ m.fromAddress ++ ['>'] ++ crlf ++ "To: ".toList ++ addresses m.toAddress ++
  (if m.ccAddress.isEmpty then [] else "Cc: ".toList ++ addresses m.ccAddress) ++
  "Subject: ".toList ++ m.title ++ crlf ++
  (if m.entitys.isEmpty then []
  else "Content-Type: multipart/mixed;boundary=".toList ++ boundary ++ crlf) ++
  "MIME-Version: 1.0".toList ++ crlf ++ (if m.entitys.isEmpty then [] else part ++ crlf) ++
  "Content-Type: text/html;charset=\"utf-8\"".toList ++ crlf ++ crlf ++ m.body ++ crlf ++
  m.entitys.flatMap (fun i => part ++ crlf ++ i.toText) ++
  (if m.entitys.isEmpty then [] else part ++ "--".toList ++ crlf) ++ crlf

def lines (line : Text) : Text → List Text
  | '\r' :: '\n' :: rest => line :: lines [] rest
  | c :: rest => lines (line ++ [c]) rest
  | [] => []

structure Server (σ : Type) where
  command : σ → Text → σ
  inData : σ → Bool
  finish : σ → σ

namespace Server

variable {σ : Type} (S : Server σ)

def step (s : σ) (line : Text) : σ :=
  if S.inData s then if line = ['.'] then S.finish s else s else S.command s line

def behind (ls : List Text) : List Text := (ls.dropWhile (· ≠ ['.'])).tail

end Server

/-- What stands behind the first line of the message that is a single dot: nothing, if that is the
line which `send` ends it with. -/
def rest (m : EMail) (boundary : Text) : List Text :=
  Server.behind (lines [] (message m boundary) ++ [['.']])

/-- A server that takes the data behind so many commands, and no more of it later. -/
def once : Server (Option Nat) where
  command s _ := s.map Nat.pred
  inData s := s = some 0
  finish _ := none

/-- `DATA` starts the data of a mail. -/
def plain : Server Bool where
  command _ line := line = "DATA".toList
  inData := id
  finish _ := false

end Helens.SmtpClient
