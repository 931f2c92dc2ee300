import NetDebugger.Http.Total
import NetDebugger.Lib.Checked
import NetDebugger.Lib.Memo
import NetDebugger.Lib.Runs
import NetDebugger.Model
import NetDebugger.Tls.Keylog

/-! The Inspector window of `ui.cpp`, which shows the messages of the selected flow.  It parses and
decrypts a flow again only when the keys of its caches change. -/

namespace NetDebugger

open Lib Http Tls

/-- What the Inspector reads of a flow. -/
structure Shown where
  flowId : UInt64
  out : List UInt8
  inn : List UInt8
deriving DecidableEq

def KndFlow.shown (f : KndFlow) : Shown := ⟨f.flowId, f.payload .outbound, f.payload .inbound⟩

/-! ### The statics of `DrawInspector` -/

structure ParseKey where
  cFlow : UInt64
  cOut : Nat
  cIn : Nat
deriving DecidableEq

structure Parses where
  reqs : List HttpMessage
  resps : List HttpMessage
deriving DecidableEq

def Shown.parseKey (x : Shown) : ParseKey := ⟨x.flowId, x.out.length, x.inn.length⟩

def Shown.parse (x : Shown) : Option Parses := do
  let reqs ← httpParse x.out false
  let resps ← httpParse x.inn true
  some ⟨reqs, resps⟩

structure DecryptKey where
  dFlow : UInt64
  dOut : Nat
  dIn : Nat
  dKeys : Nat
deriving DecidableEq

structure Decrypts where
  dres : TlsDecryptResult
  dreq : List HttpMessage
  dresp : List HttpMessage
deriving DecidableEq

/-- What the Decrypted tab reads. -/
structure Ciphered where
  flow : Shown
  keylog : KeyMap

def Ciphered.decryptKey (x : Ciphered) : DecryptKey :=
  ⟨x.flow.flowId, x.flow.out.length, x.flow.inn.length, KeyMap.size x.keylog⟩

def Ciphered.decrypt (A : Gcm) (H : Hmac) (x : Ciphered) : Option Decrypts := do
  let dres ← tlsDecryptFlow A H x.flow.out x.flow.inn (KeyMap.keyLog x.keylog)
  if dres.ok then
    let dreq ← httpParse dres.outPlain false
    let dresp ← httpParse dres.inPlain true
    some ⟨dres, dreq, dresp⟩
  else some ⟨dres, [], []⟩

/-! ### The program -/

/-- The model, what `AppState` holds of the selection and the keylog, and the statics. -/
structure Ui where
  model : KndModel
  selectedFlow : UInt64
  keylog : KeyMap
  keylogLoaded : Bool
  http : Memo ParseKey Parses
  dec : Memo DecryptKey Decrypts

def ParseKey.unused : ParseKey := ⟨0, sizeMax, sizeMax⟩

def DecryptKey.unused : DecryptKey := ⟨0, sizeMax, sizeMax, sizeMax⟩

def Ui.init : Ui where
  model := KndModel.empty (4 * 1024 * 1024) 50000
  selectedFlow := 0
  keylog := ∅
  keylogLoaded := false
  http := ⟨.unused, ⟨[], []⟩⟩
  dec := ⟨.unused, ⟨⟨false, [], 0, false, [], []⟩, [], []⟩⟩

/-- The open tab of the Inspector. -/
inductive Tab
  | http
  | decrypted
  | raw
deriving DecidableEq

/-- A frame without a tab is one in which the window is collapsed. A keylog that cannot be read
has no contents. The cap is that of the settings, an `int` in megabytes. -/
inductive UiEvent
  | ingest (p : Nat → UInt8) (now : Nat)
  | clear
  | select (flowId : UInt64)
  | loadKeylog (contents : Option (List UInt8))
  | payloadCap (mb : Int)
  | frame (tab : Option Tab)

/-- `(size_t)st.payloadCapMB * 1024u * 1024u`. -/
def capBytes (mb : Int) : Nat := (mb * 2 ^ 20 % 2 ^ 64).toNat

section

variable (A : Gcm) (H : Hmac)

def drawInspector (u : Ui) (tab : Tab) : Option Ui :=
  match u.model.find u.selectedFlow with
  | none => some u
  | some f => do
    let http ← u.http.refresh Shown.parseKey Shown.parse f.shown
    if tab = .decrypted ∧ u.keylogLoaded then
      let dec ← u.dec.refresh Ciphered.decryptKey (Ciphered.decrypt A H) ⟨f.shown, u.keylog⟩
      some { u with http, dec }
    else some { u with http }

variable (utf16ToUtf8 : List UInt16 → List UInt8)

def Ui.step (u : Ui) : UiEvent → Option Ui
  | .ingest p now => some { u with model := u.model.ingest utf16ToUtf8 p now }
  | .clear => some { u with model := u.model.clear }
  | .select flowId => some { u with selectedFlow := flowId }
  | .loadKeylog contents =>
    let keylog := KeyMap.loadFile ∅ (contents.getD [])
    some { u with keylog, keylogLoaded := KeyMap.size keylog > 0 }
  | .payloadCap mb => some { u with model := { u.model with payloadCap := capBytes mb } }
  | .frame none => some u
  | .frame (some tab) => drawInspector A H u tab

end

end NetDebugger
