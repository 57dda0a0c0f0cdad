import ManageOurHome.Lib.FMap
import ManageOurHome.Lib.ReadCommitted
import ManageOurHome.Lib.RowLocks
import ManageOurHome.Lib.Zone
import ManageOurHome.Lib.Loop
import ManageOurHome.Lib.Search
import ManageOurHome.Lib.Utf8
import ManageOurHome.Lib.Markup
import ManageOurHome.Lib.Nesting
import ManageOurHome.Lib.Net
import ManageOurHome.Lib.Query
import ManageOurHome.Lib.Keyset
import ManageOurHome.Lib.Broadcast
import ManageOurHome.Lib.Grouped
import ManageOurHome.Lib.Gregorian
import ManageOurHome.Lib.OrderedMap
import ManageOurHome.Lib.Enumerated
import ManageOurHome.Lib.Children
import ManageOurHome.Time
import ManageOurHome.Text
import ManageOurHome.Json
import ManageOurHome.Float
import ManageOurHome.Error
import ManageOurHome.Cursor
import ManageOurHome.Auth.Throttle
import ManageOurHome.Auth.ThrottleRows
import ManageOurHome.Auth.ThrottleBounds
import ManageOurHome.Auth.ThrottleBudget
import ManageOurHome.Auth.ThrottleStore
import ManageOurHome.Auth.ThrottleWrites
import ManageOurHome.Auth.ThrottleAlone
import ManageOurHome.Auth.ThrottleKept
import ManageOurHome.Auth.ThrottleRace
import ManageOurHome.Auth.ThrottleLost
import ManageOurHome.Auth.Passwords
import ManageOurHome.Auth.PasswordChange
import ManageOurHome.Auth.CutOff
import ManageOurHome.Auth.Verification
import ManageOurHome.Auth.Cooldown
import ManageOurHome.Auth.Address
import ManageOurHome.Auth.Stranger
import ManageOurHome.Auth.GoogleIdToken
import ManageOurHome.Auth.SignInOnce
import ManageOurHome.Auth.JwksCache
import ManageOurHome.RateLimit.Sliding
import ManageOurHome.RateLimit.SlidingRace
import ManageOurHome.Csp.Report
import ManageOurHome.Csp.Redacted
import ManageOurHome.Csp.Logged
import ManageOurHome.Csp.ReportThrottle
import ManageOurHome.Csp.ReportThrottleTable
import ManageOurHome.Csp.ReportThrottleRace
import ManageOurHome.Agenda.Clock
import ManageOurHome.Agenda.Unroll
import ManageOurHome.Agenda.UnrollWindow
import ManageOurHome.Agenda.Recurrence
import ManageOurHome.Agenda.Validate
import ManageOurHome.Agenda.Occurrences
import ManageOurHome.Agenda.Reminders
import ManageOurHome.Agenda.OnTime
import ManageOurHome.Agenda.WholeDays
import ManageOurHome.Agenda.Calendar
import ManageOurHome.Agenda.CivilDays
import ManageOurHome.Agenda.Split
import ManageOurHome.Agenda.Carried
import ManageOurHome.Agenda.Picker
import ManageOurHome.Agenda.UntilDay
import ManageOurHome.Agenda.CapSpent
import ManageOurHome.Agenda.RowSpans
import ManageOurHome.Agenda.EventStore
import ManageOurHome.Agenda.UpdateEvent
import ManageOurHome.Agenda.SeriesEdit
import ManageOurHome.Agenda.Weekly
import ManageOurHome.Agenda.MovedSeries
import ManageOurHome.Agenda.Easter
import ManageOurHome.Agenda.SchoolHolidays
import ManageOurHome.Agenda.SchoolCache
import ManageOurHome.Agenda.Participants
import ManageOurHome.Agenda.Permitted
import ManageOurHome.GoogleCalendar.Repair
import ManageOurHome.GoogleCalendar.Parse
import ManageOurHome.ClientIp.Resolve
import ManageOurHome.ClientIp.Chain
import ManageOurHome.Account.PurgeClock
import ManageOurHome.Account.Deactivation
import ManageOurHome.Account.PersonalRows
import ManageOurHome.Account.LeftBehind
import ManageOurHome.HttpGuard.Origin
import ManageOurHome.Lib.Atomic
import ManageOurHome.UserAdmin.Session
import ManageOurHome.UserAdmin.Closed
import ManageOurHome.Notifications.Push
import ManageOurHome.Notifications.Forget
import ManageOurHome.Notifications.Receipt
import ManageOurHome.Notifications.Devices
import ManageOurHome.Notifications.DevicesKept
import ManageOurHome.Notifications.Center
import ManageOurHome.HttpGuard.BaseUrl
import ManageOurHome.HttpGuard.Foreign
import ManageOurHome.HttpGuard.Limits
import ManageOurHome.HttpGuard.Body
import ManageOurHome.HttpGuard.Gate
import ManageOurHome.Groups.Members
import ManageOurHome.Groups.Owner
import ManageOurHome.Groups.Succession
import ManageOurHome.Groups.Heir
import ManageOurHome.Groups.Ownerless
import ManageOurHome.Storage.Reconcile
import ManageOurHome.Storage.Bucket
import ManageOurHome.Storage.Effects
import ManageOurHome.Storage.InUse
import ManageOurHome.Storage.Missing
import ManageOurHome.Stocks.Merge
import ManageOurHome.Stocks.Reception
import ManageOurHome.Stocks.ReceptionForm
import ManageOurHome.Stocks.ReceptionPlan
import ManageOurHome.Stocks.Items
import ManageOurHome.Stocks.Gs1
import ManageOurHome.Stocks.Gtin
import ManageOurHome.Stocks.DigitalLink
import ManageOurHome.Stocks.Gs1Date
import ManageOurHome.Stocks.ElementString
import ManageOurHome.Avatar.Jpeg
import ManageOurHome.Avatar.JpegWalk
import ManageOurHome.Avatar.JpegFile
import ManageOurHome.Recipes.Outcome
import ManageOurHome.Recipes.Availability
import ManageOurHome.Recipes.Agree
import ManageOurHome.Recipes.Allocated
import ManageOurHome.Recipes.AddedOnce
import ManageOurHome.Recipes.PlainText
import ManageOurHome.Recipes.Steps
import ManageOurHome.Recipes.IngredientFields
import ManageOurHome.Recipes.IngredientLine
import ManageOurHome.Recipes.IngredientRead
import ManageOurHome.Recipes.IngredientUnit
import ManageOurHome.Recipes.IngredientKept
import ManageOurHome.Recipes.KeptText
import ManageOurHome.Recipes.Html
import ManageOurHome.Recipes.Taxonomy
import ManageOurHome.Recipes.Resolved
import ManageOurHome.Recipes.Spellings
import ManageOurHome.Recipes.Page
import ManageOurHome.Recipes.PageTokens
import ManageOurHome.Recipes.PageEnds
import ManageOurHome.Recipes.HtmlSlices
import ManageOurHome.Recipes.Extents
import ManageOurHome.Recipes.PageText
import ManageOurHome.Recipes.Microdata
import ManageOurHome.Stocks.Store
import ManageOurHome.Stocks.Conserved
import ManageOurHome.Grocery.Planned
import ManageOurHome.Grocery.Sums
import ManageOurHome.Grocery.Generate
import ManageOurHome.Grocery.Once
import ManageOurHome.Budget.Entries
import ManageOurHome.Budget.Links
import ManageOurHome.Budget.Alerts
import ManageOurHome.Budget.Summary
import ManageOurHome.Messagerie.Messages
import ManageOurHome.Messagerie.Older
import ManageOurHome.Messagerie.Watermark
import ManageOurHome.Messagerie.Paged
import ManageOurHome.Messagerie.Hub
import ManageOurHome.Messagerie.Live
import ManageOurHome.Messagerie.Listener
import ManageOurHome.Messagerie.Followed
import ManageOurHome.Messagerie.LiveThread
import ManageOurHome.Notifications.Paged
import ManageOurHome.PublicDestination.Destination
import ManageOurHome.PublicDestination.Registries
import ManageOurHome.PublicDestination.Reached
import ManageOurHome.Rgpd.Markdown
import ManageOurHome.Rgpd.Rendered
import ManageOurHome.Rgpd.DocumentText
