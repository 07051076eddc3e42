import Comax.Cli.Credentials
import Comax.Cli.Diff
import Comax.Cli.Export
import Comax.Cli.Mask
import Comax.Cli.PullBack
import Comax.Cli.Render
import Comax.Cli.Replace
import Comax.Cli.RoundTrip
import Comax.Cli.Run
import Comax.Crypto.KeyFile
import Comax.Dashboard.Diff
import Comax.Dashboard.Dotenv
import Comax.Dashboard.Validate
import Comax.Sdk.Addresses
import Comax.Sdk.Monotone
import Comax.Sdk.Webhook
import Comax.Secret.Errors
import Comax.Secret.Metadata
import Comax.Server.Admins
import Comax.Server.Audit
import Comax.Server.AuditSearch
import Comax.Server.Consistency
import Comax.Server.Csrf
import Comax.Server.IPPrefix
import Comax.Server.Reads
import Comax.Server.Rollback
import Comax.Server.Rules
import Comax.Server.Secrecy
import Comax.Server.Secrets
import Comax.Server.SessionList
import Comax.Server.Versions
import Comax.Store.Resume
import Comax.Tmpl.Substitution
import Comax.Webhook.Attempts
import Comax.Webhook.Payload
import Comax.Webhook.Ssrf
