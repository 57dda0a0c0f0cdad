import ManageOurHome.Text

/-! @src apps/shared/src/validation/auth.rs, apps/api/src/crypto.rs | layer:model | family:authentication

    The passwords: what is accepted as one, and what of it is kept. -/

namespace Home.Auth

/-- `crypto`, with the table of lowercase letters and the blocklist the validation reads. -/
structure Crypto (H : Type) where
  lowercase : Text → Text
  commonPasswords : List Text
  /-- A hash `hash_password` may answer: its salt is drawn. -/
  hashPassword : Text → H → Prop
  verifyPassword : Text → H → Bool

def minPasswordLen : ℕ := 12

def maxPasswordLen : ℕ := 128

variable {H : Type}

def validatePassword (crypto : Crypto H) (password : Text) : Except String Unit :=
  if password.length < minPasswordLen then .error "password_too_short"
  else if password.length > maxPasswordLen then .error "password_too_long"
  else if crypto.lowercase password ∈ crypto.commonPasswords then .error "password_too_common"
  else .ok ()

/-- A hash is verified by the password hashed, and by no other. -/
structure Crypto.Lawful (crypto : Crypto H) : Prop where
  complete : ∀ password hash, crypto.hashPassword password hash → crypto.verifyPassword password hash = true
  sound : ∀ password other hash, crypto.hashPassword password hash → crypto.verifyPassword other hash = true →
    other = password

theorem Crypto.Lawful.hashed_once {crypto : Crypto H} (h : crypto.Lawful) {password other : Text} {hash : H}
    (hpassword : crypto.hashPassword password hash) (hother : crypto.hashPassword other hash) : other = password :=
  h.sound password other hash hpassword (h.complete other hash hother)

/-- Every text its own hash, and none refused but for its length. -/
def plain : Crypto Text where
  lowercase := asciiLowercase
  commonPasswords := []
  hashPassword password hash := hash = password
  verifyPassword password hash := password = hash

theorem plain_lawful : plain.Lawful where
  complete password hash h := by simpa [plain] using h.symm
  sound password other hash h hverify := by
    have hother : other = hash := by simpa [plain] using hverify
    exact hother.trans h

end Home.Auth
